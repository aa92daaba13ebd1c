import CfgNoodle.Elem
import CfgNoodle.Lib.TopK

/-! # The cache of good write records

What a list remembers of its storage between calls: the next sequence number,
the `K` valid write records with the greatest sequence numbers and where they
lie, and whether a collection is due. The records are kept sorted by an
unstable sort, which is a parameter. -/
namespace CfgNoodle
open scoped List

/-- `core::ops::RangeInclusive<usize>`. -/
structure RangeInclusive where
  first : Nat
  last : Nat
  deriving DecidableEq

def RangeInclusive.contains (r : RangeInclusive) (n : Nat) : Bool := r.first ≤ n && n ≤ r.last

structure GoodWriteRecord where
  seq : NonZeroU32
  range : RangeInclusive
  deriving DecidableEq

namespace GoodWriteRecord

def seqKey (r : GoodWriteRecord) : Nat := r.seq.get

theorem seqKey_pos (r : GoodWriteRecord) : 0 < r.seqKey := r.seq.pos

end GoodWriteRecord

/-- `sort_unstable_by_key` on the slots: `None` first, then by number. -/
abbrev SlotSorter := TopK.Sorter (Option GoodWriteRecord) (TopK.slotKey GoodWriteRecord.seqKey)

structure SeqState (K : Nat) where
  nextSeq : Option NonZeroU32
  lastRecords : List (Option GoodWriteRecord)
  needsGc : Bool
  len : lastRecords.length = K
  deriving DecidableEq

namespace SeqState
variable {K : Nat}

def new : SeqState K := ⟨none, List.replicate K none, false, List.length_replicate⟩

def initialScanCompleted (s : SeqState K) : Bool := s.nextSeq.isSome

def highestSeen (s : SeqState K) : Option GoodWriteRecord := s.lastRecords.getLast?.join

/-- The records in the cache. -/
def records (s : SeqState K) : List GoodWriteRecord := TopK.filled s.lastRecords

/-- `*lowest = Some(rec)` and what follows it in `insert_good`. -/
def store (S : SlotSorter) (s : SeqState K) (lowest : Nat) (rec : GoodWriteRecord) : SeqState K :=
  let lastRecords := S.sort (s.lastRecords.set lowest (some rec))
  let next := (lastRecords.getLast?.join.map GoodWriteRecord.seq).getD NonZeroU32.one
  { nextSeq := next.checkedAdd 1
    lastRecords
    needsGc := true
    len := by rw [(S.perm _).length_eq, List.length_set, s.len] }

/-- `min_by_key`: the first of the slots with the least number. -/
def lowest (s : SeqState K) : Nat :=
  TopK.minIdx (TopK.slotKey GoodWriteRecord.seqKey) s.lastRecords

def insertGood (S : SlotSorter) (s : SeqState K) (rec : GoodWriteRecord) : SeqState K :=
  match s.lastRecords[s.lowest]? with
  | some (some low) => if low.seq.get > rec.seq.get then s else s.store S s.lowest rec
  | _ => s.store S s.lowest rec

/-- `insert_good` for one record after the other. -/
def insertAll (S : SlotSorter) (s : SeqState K) (recs : List GoodWriteRecord) : SeqState K :=
  recs.foldl (insertGood S) s

@[simp] theorem initialScanCompleted_new : (new : SeqState K).initialScanCompleted = false := rfl

@[simp] theorem needsGc_new : (new : SeqState K).needsGc = false := rfl

@[simp] theorem nextSeq_new : (new : SeqState K).nextSeq = none := rfl

@[simp] theorem records_new : (new : SeqState K).records = [] := by
  simp [records, new, TopK.filled]

@[simp] theorem insertAll_nil (S : SlotSorter) (s : SeqState K) : s.insertAll S [] = s := rfl

theorem insertAll_append (S : SlotSorter) (s : SeqState K) (a b : List GoodWriteRecord) :
    s.insertAll S (a ++ b) = (s.insertAll S a).insertAll S b :=
  List.foldl_append

/-! ## What inserting does -/

variable (S : SlotSorter)

/-- `insert_good` is the library's offer to the slots. -/
theorem lastRecords_insertGood (s : SeqState K) (r : GoodWriteRecord) :
    (s.insertGood S r).lastRecords = TopK.put S s.lastRecords r := by
  simp only [insertGood, TopK.put, lowest]
  split
  · next low h =>
    simp only [h]
    by_cases hlt : low.seqKey > r.seqKey
    · rw [if_pos hlt, if_pos (show low.seq.get > r.seq.get from hlt)]
    · rw [if_neg hlt, if_neg (show ¬ low.seq.get > r.seq.get from hlt)]; rfl
  · next h =>
    split
    · next low h' => exact absurd h' (h low)
    · rfl

/-- What every insertion preserves, all of them do. -/
theorem insertAll_preserves {P : SeqState K → Prop} (hP : ∀ s r, P s → P (s.insertGood S r))
    (recs : List GoodWriteRecord) {s : SeqState K} (h : P s) : P (s.insertAll S recs) := by
  induction recs generalizing s with
  | nil => exact h
  | cons r recs ih => exact ih (hP s r h)

theorem lastRecords_insertAll (recs : List GoodWriteRecord) (s : SeqState K) :
    (s.insertAll S recs).lastRecords = recs.foldl (TopK.put S) s.lastRecords := by
  induction recs generalizing s with
  | nil => rfl
  | cons r recs ih =>
    show ((s.insertGood S r).insertAll S recs).lastRecords = _
    rw [ih, lastRecords_insertGood, List.foldl_cons]

/-- The state right after an insertion: the next number follows the last slot
and a collection is due. -/
structure Inserted (s : SeqState K) : Prop where
  nextSeq : s.nextSeq =
    ((s.highestSeen.map GoodWriteRecord.seq).getD NonZeroU32.one).checkedAdd 1
  needsGc : s.needsGc = true

/-- All that `insert_good` can do. -/
theorem insertGood_cases (s : SeqState K) (r : GoodWriteRecord) :
    (s.insertGood S r = s ∧ ∀ o ∈ s.lastRecords, ∃ y, o = some y ∧ r.seqKey < y.seqKey) ∨
      (s.insertGood S r).Inserted := by
  rcases Nat.eq_zero_or_pos s.lastRecords.length with h0 | hpos
  · right
    simp only [insertGood]
    rw [List.length_eq_zero_iff.mp h0]
    exact ⟨rfl, rfl⟩
  · have hne : s.lastRecords ≠ [] := List.ne_nil_of_length_pos hpos
    obtain ⟨a, m, b, he, hi, hm⟩ := TopK.minIdx_spec (TopK.slotKey GoodWriteRecord.seqKey) hne
    have hget : s.lastRecords[s.lowest]? = some m := by rw [lowest, hi, he]; simp
    simp only [insertGood]
    rw [hget]
    cases m with
    | none => exact Or.inr ⟨rfl, rfl⟩
    | some y =>
      by_cases hlt : y.seq.get > r.seq.get
      · refine Or.inl ⟨if_pos hlt, fun o ho => ?_⟩
        have hle := hm o ho
        cases o with
        | none =>
          have := y.seqKey_pos
          simp only [TopK.slotKey] at hle; omega
        | some z => exact ⟨z, rfl, Nat.lt_of_lt_of_le hlt hle⟩
      · refine Or.inr ?_
        simp only [hlt, if_false]
        exact ⟨rfl, rfl⟩

/-- Every slot holds a record with a greater number. -/
def Outranks (s : SeqState K) (r : GoodWriteRecord) : Prop :=
  ∀ o ∈ s.lastRecords, ∃ y, o = some y ∧ r.seqKey < y.seqKey

theorem insertGood_of_outranks (hK : 0 < K) {s : SeqState K} {r : GoodWriteRecord}
    (h : s.Outranks r) : s.insertGood S r = s := by
  have hlen := s.len
  have hne : s.lastRecords ≠ [] := List.ne_nil_of_length_pos (by omega)
  obtain ⟨a, m, b, he, hi, _⟩ := TopK.minIdx_spec (TopK.slotKey GoodWriteRecord.seqKey) hne
  obtain ⟨y, rfl, hlt⟩ := h m (by rw [he]; simp)
  have hget : s.lastRecords[s.lowest]? = some (some y) := by rw [lowest, hi, he]; simp
  simp only [insertGood]
  rw [hget]
  exact if_pos hlt

/-- A record that is not outranked gets a slot. -/
theorem outranks_or_mem (hK : 0 < K) (s : SeqState K) (r : GoodWriteRecord) :
    s.Outranks r ∨ r ∈ (s.insertGood S r).records := by
  have hlen := s.len
  have hne : s.lastRecords ≠ [] := List.ne_nil_of_length_pos (by omega)
  rcases TopK.put_cases S hne r with ⟨_, hall⟩ | ⟨a, m, b, _, _, _, hp⟩
  · exact Or.inl hall
  · refine Or.inr (TopK.mem_filled.mpr ?_)
    rw [lastRecords_insertGood, hp, (S.perm _).mem_iff]
    simp

/-! ## Runs of insertions -/

/-- The slots are in increasing order of their numbers. -/
def Sorted (s : SeqState K) : Prop :=
  s.lastRecords.Pairwise fun a b =>
    TopK.slotKey GoodWriteRecord.seqKey a ≤ TopK.slotKey GoodWriteRecord.seqKey b

theorem sorted_new : (new : SeqState K).Sorted := by
  simp only [Sorted, new]
  exact List.pairwise_replicate.mpr (Or.inr (Nat.le_refl _))

theorem Sorted.insertGood {s : SeqState K} (h : s.Sorted) (r : GoodWriteRecord) :
    (s.insertGood S r).Sorted := by
  simp only [Sorted]
  rw [lastRecords_insertGood]
  exact TopK.put_sorted S h

theorem Sorted.insertAll (recs : List GoodWriteRecord) {s : SeqState K} (h : s.Sorted) :
    (s.insertAll S recs).Sorted := insertAll_preserves S (fun _ r h => h.insertGood S r) recs h

/-- In a sorted cache the last slot has the greatest number, if any is filled. -/
theorem Sorted.highestSeen {s : SeqState K} (h : s.Sorted) :
    (s.highestSeen = none ∧ s.records = []) ∨
      ∃ r, s.highestSeen = some r ∧ r ∈ s.records ∧ ∀ x ∈ s.records, x.seqKey ≤ r.seqKey := by
  simp only [Sorted] at h
  simp only [SeqState.highestSeen, records]
  rcases List.eq_nil_or_concat s.lastRecords with he | ⟨init, o, he⟩
  · rw [he]; exact Or.inl ⟨rfl, rfl⟩
  · rw [he, List.concat_eq_append] at h ⊢
    have hle : ∀ a ∈ init, TopK.slotKey GoodWriteRecord.seqKey a ≤
        TopK.slotKey GoodWriteRecord.seqKey o := by
      intro a ha
      exact (List.pairwise_append.mp h).2.2 a ha o (by simp)
    cases o with
    | none =>
      refine Or.inl ⟨by simp, ?_⟩
      refine List.eq_nil_iff_forall_not_mem.mpr fun x hx => ?_
      rw [TopK.mem_filled] at hx
      rcases List.mem_append.mp hx with hx | hx
      · exact absurd (hle _ hx) (Nat.not_le_of_lt x.seqKey_pos)
      · simp at hx
    | some r =>
      refine Or.inr ⟨r, by simp, TopK.mem_filled.mpr (by simp), fun x hx => ?_⟩
      rcases List.mem_append.mp (TopK.mem_filled.mp hx) with hx | hx
      · exact hle _ hx
      · simp only [List.mem_singleton, Option.some.injEq] at hx
        rw [hx]

/-- Whatever is in the slots was there before or has been offered. -/
theorem mem_insertGood {s : SeqState K} {r x : GoodWriteRecord}
    (h : x ∈ (s.insertGood S r).records) : x = r ∨ x ∈ s.records := by
  simp only [records] at *
  rw [TopK.mem_filled, lastRecords_insertGood] at *
  exact (TopK.mem_put S h).imp_left Option.some.inj

theorem mem_insertAll {x : GoodWriteRecord} (recs : List GoodWriteRecord) {s : SeqState K}
    (h : x ∈ (s.insertAll S recs).records) : x ∈ recs ∨ x ∈ s.records := by
  induction recs generalizing s with
  | nil => exact Or.inr h
  | cons r recs ih =>
    rcases ih (s := s.insertGood S r) h with hx | hx
    · exact Or.inl (List.mem_cons_of_mem _ hx)
    · rcases mem_insertGood S hx with rfl | hx
      · exact Or.inl List.mem_cons_self
      · exact Or.inr hx

theorem mem_records_of_highestSeen {s : SeqState K} {r : GoodWriteRecord}
    (h : s.highestSeen = some r) : r ∈ s.records := by
  simp only [SeqState.highestSeen] at h
  exact TopK.mem_filled.mpr (List.mem_of_getLast? (Option.join_eq_some_iff.mp h))

theorem isTop_insertAll (hK : 0 < K) {s : SeqState K} {all : List GoodWriteRecord}
    (h : TopK.IsTop K GoodWriteRecord.seqKey all s.records) (recs : List GoodWriteRecord) :
    TopK.IsTop K GoodWriteRecord.seqKey (recs ++ all) (s.insertAll S recs).records := by
  have hlen := s.len
  have hne : s.lastRecords ≠ [] := List.ne_nil_of_length_pos (by omega)
  have hput := TopK.isTop_foldl_put S GoodWriteRecord.seqKey_pos recs hne (by rw [hlen]; exact h)
  rw [hlen] at hput
  simp only [records]
  rwa [lastRecords_insertAll]

/-- The slots hold the greatest of what was inserted. -/
theorem isTop_insertAll_new (hK : 0 < K) (recs : List GoodWriteRecord) :
    TopK.IsTop K GoodWriteRecord.seqKey recs ((new : SeqState K).insertAll S recs).records := by
  have h := isTop_insertAll S hK (s := new) (by rw [records_new]; exact TopK.IsTop.nil) recs
  rwa [List.append_nil] at h

theorem Inserted.insertAll (recs : List GoodWriteRecord) {s : SeqState K} (h : s.Inserted) :
    (s.insertAll S recs).Inserted := by
  refine insertAll_preserves S (fun s r h => ?_) recs h
  rcases insertGood_cases S s r with ⟨he, _⟩ | hi
  · rw [he]
    exact h
  · exact hi

/-- Inserting changes nothing or leaves the state of an insertion. -/
theorem insertAll_cases (recs : List GoodWriteRecord) (s : SeqState K) :
    s.insertAll S recs = s ∨ (s.insertAll S recs).Inserted := by
  induction recs with
  | nil => exact Or.inl rfl
  | cons r recs ih =>
    show (s.insertGood S r).insertAll S recs = s ∨ ((s.insertGood S r).insertAll S recs).Inserted
    rcases insertGood_cases S s r with ⟨he, _⟩ | hi
    · rw [he]
      exact ih
    · exact Or.inr (hi.insertAll S recs)

theorem records_length_le (s : SeqState K) : s.records.length ≤ K := by
  simp only [records]
  have h : (TopK.filled s.lastRecords).length ≤ s.lastRecords.length := TopK.filled_length_le
  rwa [s.len] at h

/-- Afterwards some slot holds the greatest of what was there and what was offered. -/
theorem exists_max_insertAll (hK : 0 < K) (s : SeqState K) {recs : List GoodWriteRecord}
    (hne : recs ++ s.records ≠ []) :
    ∃ y ∈ (s.insertAll S recs).records, ∀ x ∈ recs ++ s.records, x.seqKey ≤ y.seqKey :=
  (isTop_insertAll S hK (.self s.records_length_le) recs).exists_max hK hne

theorem inserted_insertAll_new (hK : 0 < K) {recs : List GoodWriteRecord} (hne : recs ≠ []) :
    ((new : SeqState K).insertAll S recs).Inserted := by
  obtain ⟨r, recs, rfl⟩ := List.exists_cons_of_ne_nil hne
  refine Inserted.insertAll S recs (s := new.insertGood S r) ?_
  rcases insertGood_cases S (new : SeqState K) r with ⟨_, hall⟩ | hi
  · -- an empty slot is never greater
    obtain ⟨y, hy, _⟩ := hall none (List.mem_replicate.mpr ⟨hK.ne', rfl⟩)
    cases hy
  · exact hi

/-- After an insertion the last slot holds one with the greatest number, and the next
number follows it. -/
theorem Inserted.highest {s : SeqState K} (hi : s.Inserted) (hs : s.Sorted)
    (hne : s.records ≠ []) : ∃ r ∈ s.records, s.highestSeen = some r ∧
      (∀ x ∈ s.records, x.seqKey ≤ r.seqKey) ∧ s.nextSeq = r.seq.checkedAdd 1 := by
  obtain ⟨r, hr, hmem, hmax⟩ := hs.highestSeen.resolve_left fun h => hne h.2
  refine ⟨r, hmem, hr, hmax, ?_⟩
  rw [hi.nextSeq, hr]
  rfl

theorem highest_insertAll_new (hK : 0 < K) {recs : List GoodWriteRecord} (hne : recs ≠ []) :
    ∃ r ∈ recs, ((new : SeqState K).insertAll S recs).highestSeen = some r ∧
      (∀ x ∈ recs, x.seqKey ≤ r.seqKey) ∧
      ((new : SeqState K).insertAll S recs).nextSeq = r.seq.checkedAdd 1 := by
  have htop := isTop_insertAll_new S hK recs
  obtain ⟨y, hy, hle⟩ := htop.exists_max hK hne
  obtain ⟨r, hmem, hr, hmax, hnext⟩ := (inserted_insertAll_new S hK hne).highest
    (sorted_new.insertAll S recs) (List.ne_nil_of_mem hy)
  exact ⟨r, htop.subset r hmem, hr, fun x hx => (hle x hx).trans (hmax y hy), hnext⟩

/-- Records that bear a mark leave no trace in a cache without any only if every
one of them is outranked. -/
theorem outranks_of_insertAll_eq (hK : 0 < K) {s : SeqState K} {mark : GoodWriteRecord → Prop}
    (hs : ∀ r ∈ s.records, ¬ mark r) : ∀ {recs : List GoodWriteRecord}, (∀ r ∈ recs, mark r) →
    s.insertAll S recs = s → ∀ r ∈ recs, s.Outranks r := by
  -- once a marked record has a slot, some marked record always has
  have hstay : ∀ (recs : List GoodWriteRecord) (t : SeqState K), (∀ r ∈ recs, mark r) →
      (∃ r ∈ t.records, mark r) → ∃ r ∈ (t.insertAll S recs).records, mark r := by
    intro recs
    induction recs with
    | nil => intro t _ h; exact h
    | cons r recs ih =>
      intro t hm h
      refine ih (t.insertGood S r) (fun x hx => hm x (List.mem_cons_of_mem r hx)) ?_
      rcases outranks_or_mem S hK t r with hout | hmem
      · rw [insertGood_of_outranks S hK hout]; exact h
      · exact ⟨r, hmem, hm r List.mem_cons_self⟩
  intro recs
  induction recs with
  | nil => intro _ _ r hr; cases hr
  | cons r recs ih =>
    intro hm he
    rcases outranks_or_mem S hK s r with hout | hmem
    · have heq : s.insertAll S (r :: recs) = s.insertAll S recs :=
        congrArg (insertAll S · recs) (insertGood_of_outranks S hK hout)
      intro x hx
      rcases List.mem_cons.mp hx with rfl | hx
      · exact hout
      · exact ih (fun x hx => hm x (List.mem_cons_of_mem r hx)) (heq ▸ he) x hx
    · obtain ⟨x, hx, hmx⟩ := hstay recs (s.insertGood S r)
        (fun x hx => hm x (List.mem_cons_of_mem r hx)) ⟨r, hmem, hm r List.mem_cons_self⟩
      rw [show (s.insertGood S r).insertAll S recs = s from he] at hx
      exact absurd hmx (hs x hx)

theorem insertAll_of_outranks (hK : 0 < K) {s : SeqState K} {recs : List GoodWriteRecord}
    (h : ∀ r ∈ recs, s.Outranks r) : s.insertAll S recs = s := by
  induction recs with
  | nil => rfl
  | cons r recs ih =>
    show (s.insertGood S r).insertAll S recs = s
    rw [insertGood_of_outranks S hK (h r List.mem_cons_self)]
    exact ih fun x hx => h x (List.mem_cons_of_mem r hx)

/-- In the cache of some records, a number is outranked exactly if `K` of them
have a greater one. -/
theorem outranks_iff_count (hK : 0 < K) {recs : List GoodWriteRecord} {r : GoodWriteRecord} :
    ((new : SeqState K).insertAll S recs).Outranks r ↔
      K ≤ (recs.filter fun a => r.seqKey < a.seqKey).length := by
  have htop := isTop_insertAll_new S hK recs
  have hlen := ((new : SeqState K).insertAll S recs).len
  constructor
  · intro h
    have hsome : ∀ o ∈ ((new : SeqState K).insertAll S recs).lastRecords, (id o).isSome = true := by
      intro o ho
      obtain ⟨y, rfl, _⟩ := h o ho
      rfl
    refine htop.count_of_gt ((List.filterMap_length_eq_length.mpr hsome).trans hlen) fun y hy => ?_
    obtain ⟨z, hz, hlt⟩ := h _ (TopK.mem_filled.mp hy)
    exact Option.some.inj hz ▸ hlt
  · intro h
    obtain ⟨hfull, hgt⟩ := htop.gt_of_count h
    have hsome := List.filterMap_length_eq_length.mp (hfull.trans hlen.symm)
    intro o ho
    obtain ⟨y, rfl⟩ := Option.isSome_iff_exists.mp (hsome o ho)
    exact ⟨y, rfl, hgt y (TopK.mem_filled.mpr ho)⟩

/-! ## Records that are offered twice -/

theorem Inserted.eq_of_lastRecords {s s' : SeqState K} (h : s.Inserted) (h' : s'.Inserted)
    (heq : s.lastRecords = s'.lastRecords) : s = s' := by
  have hseen : s.highestSeen = s'.highestSeen := congrArg (·.getLast?.join) heq
  have hnext := h.nextSeq
  rw [hseen, ← h'.nextSeq] at hnext
  have hgc := h.needsGc.trans h'.needsGc.symm
  obtain ⟨nextSeq, lastRecords, needsGc, len⟩ := s
  obtain ⟨nextSeq', lastRecords', needsGc', len'⟩ := s'
  cases heq
  cases hnext
  cases hgc
  rfl

section Twice
variable {S} {recs a u : List GoodWriteRecord} {M : Nat}

/-- A cache that has no room for all the records with the greatest number holds some of
these and nothing else: which ones, a stable sort decides. -/
theorem lastRecords_of_ties (hK : 0 < K) (hS : S.StableAt K) (hpos : 0 < M)
    (hM : ∀ r ∈ recs, r.seqKey ≤ M) (hfull : K ≤ (recs.filter (·.seqKey = M)).length) :
    ((new : SeqState K).insertAll S recs).lastRecords =
      (TopK.newest K (recs.filter (·.seqKey = M))).map some := by
  have htied := TopK.tied_foldl_put hK hS hpos recs hM
  have hfold : recs.foldl (TopK.put S) (List.replicate K none) =
      ((new : SeqState K).insertAll S recs).lastRecords := (lastRecords_insertAll S recs new).symm
  rw [hfold] at htied
  rw [← htied]
  refine (List.filter_eq_self.mpr (List.length_filter_eq_length_iff.mp ?_)).symm
  have hlen := congrArg List.length htied
  rw [List.length_map, TopK.newest_length hK] at hlen
  rw [((new : SeqState K).insertAll S recs).len]
  exact hlen.trans (Nat.min_eq_right hfull)

/-- Whatever the sort does, records that are offered twice fill further slots as long as
there is room. -/
theorem count_of_insertAll_twice (hK : 0 < K) (hM : ∀ r ∈ a ++ u, r.seqKey ≤ M)
    (ha : ∃ r ∈ a, r.seqKey = M)
    (heq : (new : SeqState K).insertAll S (a ++ (a ++ u)) = new.insertAll S (a ++ u)) :
    K ≤ ((a ++ u).filter (·.seqKey = M)).length := by
  obtain ⟨r, hr, hrM⟩ := ha
  have hmem : r ∈ a.filter (·.seqKey = M) := List.mem_filter.mpr ⟨hr, decide_eq_true hrM⟩
  have hpos := List.length_pos_of_mem hmem
  have htwice := (isTop_insertAll_new S hK (a ++ (a ++ u))).count_greatest (M := M) fun x hx =>
    hM x (by simp only [List.mem_append] at hx ⊢; tauto)
  have hlen := List.filter_append (p := (·.seqKey = M)) a (a ++ u)
  rw [heq, (isTop_insertAll_new S hK (a ++ u)).count_greatest hM, hlen, List.length_append] at htwice
  omega

/-- Where the sort is stable, records of which one has the greatest number can be
offered twice exactly if the greatest ones fill the cache, but for one slot at the first
time. -/
theorem insertAll_twice_iff (hK : 0 < K) (hS : S.StableAt K) (hM : ∀ r ∈ a ++ u, r.seqKey ≤ M)
    (ha : ∃ r ∈ a, r.seqKey = M) (hau : ∀ r ∈ a, r ∉ u) :
    (new : SeqState K).insertAll S (a ++ (a ++ u)) = new.insertAll S (a ++ u) ↔
      K ≤ ((a ++ u).filter (·.seqKey = M)).length ∧ K ≤ (a.filter (·.seqKey = M)).length + 1 := by
  obtain ⟨r, hr, hrM⟩ := ha
  have hpos : 0 < M := hrM ▸ r.seqKey_pos
  have hne : a.filter (·.seqKey = M) ≠ [] :=
    List.ne_nil_of_mem (List.mem_filter.mpr ⟨hr, decide_eq_true hrM⟩)
  have htwice : ∀ x ∈ a ++ (a ++ u), x.seqKey ≤ M := fun x hx =>
    hM x (by simp only [List.mem_append] at hx ⊢; tauto)
  have hdisjoint : ∀ x ∈ a.filter (·.seqKey = M), x ∉ u.filter (·.seqKey = M) := fun x hx hu =>
    hau x (List.mem_filter.mp hx).1 (List.mem_filter.mp hu).1
  by_cases hfull : K ≤ ((a ++ u).filter (·.seqKey = M)).length
  · have hfull' : K ≤ ((a ++ (a ++ u)).filter (·.seqKey = M)).length := by
      rw [List.filter_append, List.length_append]
      omega
    have h1 := lastRecords_of_ties hK hS hpos hM hfull
    have h2 := lastRecords_of_ties hK hS hpos htwice hfull'
    rw [List.filter_append] at h1 h2 hfull
    rw [List.filter_append] at h2
    rw [and_iff_right (by rwa [List.filter_append]), ← TopK.newest_twice_iff hne hdisjoint hfull]
    constructor
    · intro heq
      have := congrArg lastRecords heq
      rw [h1, h2] at this
      exact List.map_injective_iff.mpr (Option.some_injective _) this
    · intro heq
      refine Inserted.eq_of_lastRecords (inserted_insertAll_new S hK ?_)
        (inserted_insertAll_new S hK ?_) ?_
      · exact List.ne_nil_of_mem (List.mem_append_left _ hr)
      · exact List.ne_nil_of_mem (List.mem_append_left _ hr)
      · rw [h1, h2, heq]
  · exact iff_of_false (fun heq => hfull (count_of_insertAll_twice hK hM ⟨r, hr, hrM⟩ heq))
      fun h => hfull h.1

end Twice

end SeqState

end CfgNoodle

import CfgNoodle.Wire

/-! # What the cache keeps of the records met

The records of a scan are offered to the cache one by one, in the order in which
they lie in the storage, and that order depends on where the ring was last
collected. What is left when all have been offered depends on the records
alone: neither their order nor the way the sort treats equal slots shows. -/
namespace CfgNoodle
open scoped List

namespace SeqState
variable {K : Nat}

/-- The state when these records have been met, said without an order of them. -/
structure KeepsTop (recs : List GoodWriteRecord) (s : SeqState K) : Prop where
  slots : ∃ top : List GoodWriteRecord,
    s.lastRecords = List.replicate (K - top.length) none ++ top.map some ∧
      top.length = min K recs.length ∧
      (top.Pairwise fun a b => a.seqKey < b.seqKey) ∧
      (∀ r ∈ top, r ∈ recs) ∧ ∀ r ∈ recs, r ∉ top → ∀ t ∈ top, r.seqKey < t.seqKey
  highest : ∀ r, s.highestSeen = some r ↔ r ∈ recs ∧ ∀ x ∈ recs, x.seqKey ≤ r.seqKey
  nextSeq : s.nextSeq.map NonZeroU32.get = (recs.map fun r => r.seqKey + 1).max?
  needsGc : s.needsGc = true ↔ recs ≠ []

@[simp] theorem highestSeen_new : (new : SeqState K).highestSeen = none := by
  simp only [highestSeen, new, List.getLast?_replicate]
  split <;> rfl

/-- Two states agree when their slots, next numbers and flags do. -/
theorem eq_of_fields {s s' : SeqState K} (hl : s.lastRecords = s'.lastRecords)
    (hn : s.nextSeq = s'.nextSeq) (hg : s.needsGc = s'.needsGc) : s = s' := by
  cases s
  cases s'
  cases hl
  cases hn
  cases hg
  rfl

variable {recs : List GoodWriteRecord} (S : SlotSorter)

/-- Distinct numbers that are in order are in strict order. -/
theorem pairwise_lt {top : List GoodWriteRecord} (hd : (top.map GoodWriteRecord.seqKey).Nodup)
    (hs : top.Pairwise fun a b => a.seqKey ≤ b.seqKey) :
    top.Pairwise fun a b => a.seqKey < b.seqKey := by
  have hne : top.Pairwise fun a b => a.seqKey ≠ b.seqKey := List.pairwise_map.mp hd
  exact (hs.and hne).imp fun h => Nat.lt_of_le_of_ne h.1 h.2

theorem slots_insertAll_new (hK : 0 < K) (hd : (recs.map GoodWriteRecord.seqKey).Nodup) :
    ∃ top : List GoodWriteRecord,
      ((new : SeqState K).insertAll S recs).lastRecords =
          List.replicate (K - top.length) none ++ top.map some ∧
        top.length = min K recs.length ∧
        (top.Pairwise fun a b => a.seqKey < b.seqKey) ∧
        (∀ r ∈ top, r ∈ recs) ∧ ∀ r ∈ recs, r ∉ top → ∀ t ∈ top, r.seqKey < t.seqKey := by
  have hsorted : ((new : SeqState K).insertAll S recs).Sorted := sorted_new.insertAll S recs
  have htop := isTop_insertAll_new S hK recs
  have hslots := TopK.slots_eq_append GoodWriteRecord.seqKey_pos hsorted
  rw [((new : SeqState K).insertAll S recs).len] at hslots
  have hstrict := pairwise_lt (htop.nodup_map hd) (TopK.filled_sorted hsorted)
  have hbelow : ∀ r ∈ recs, r ∉ ((new : SeqState K).insertAll S recs).records →
      ∀ t ∈ ((new : SeqState K).insertAll S recs).records, r.seqKey < t.seqKey :=
    fun r hr hout t ht => htop.lt_of_not_mem hd hr hout ht
  have hsub := htop.subset
  obtain ⟨_, _, hlen, _⟩ := htop
  exact ⟨_, hslots, hlen, hstrict, hsub, hbelow⟩

/-- What offering all of some records leaves. -/
theorem keepsTop_insertAll_new (hK : 0 < K) (hd : (recs.map GoodWriteRecord.seqKey).Nodup)
    (hmax : ∀ r ∈ recs, r.seqKey < NonZeroU32.MAX) :
    KeepsTop recs ((new : SeqState K).insertAll S recs) := by
  have hslots := slots_insertAll_new S hK hd
  by_cases hne : recs = []
  · subst hne
    exact ⟨hslots, by simp, rfl, by simp⟩
  · obtain ⟨r, hr, hhigh, hle, hnext⟩ := highest_insertAll_new S hK hne
    refine ⟨hslots, fun y => ?_, ?_, ?_⟩
    · rw [hhigh]
      constructor
      · rintro ⟨⟩
        exact ⟨hr, hle⟩
      · rintro ⟨hy, hy'⟩
        have heq : r.seqKey = y.seqKey := Nat.le_antisymm (hy' r hr) (hle y hy)
        exact congrArg some (List.inj_on_of_nodup_map hd hr hy heq)
    · -- the greatest number has a successor
      obtain ⟨n, hadd⟩ := Option.ne_none_iff_exists'.mp fun hnone : r.seq.checkedAdd 1 = none =>
        (hmax r hr).ne (NonZeroU32.checkedAdd_one_eq_none.mp hnone)
      rw [hnext, hadd, Option.map_some, NonZeroU32.checkedAdd_eq_some.mp hadd, eq_comm,
        List.max?_eq_some_iff]
      refine ⟨List.mem_map_of_mem hr, fun n hn => ?_⟩
      obtain ⟨x, hx, rfl⟩ := List.mem_map.mp hn
      exact Nat.succ_le_succ (hle x hx)
    · exact iff_of_true (inserted_insertAll_new S hK hne).needsGc hne

/-- The order of distinct records does not show, nor does the sorting routine. -/
theorem insertAll_new_of_perm (hK : 0 < K) (hd : (recs.map GoodWriteRecord.seqKey).Nodup)
    (S' : SlotSorter) {recs' : List GoodWriteRecord} (hp : recs' ~ recs) :
    (new : SeqState K).insertAll S' recs' = (new : SeqState K).insertAll S recs := by
  have hlast : ((new : SeqState K).insertAll S' recs').lastRecords =
      ((new : SeqState K).insertAll S recs).lastRecords := by
    have htop := isTop_insertAll_new (K := K) S hK recs
    have htop' := (isTop_insertAll_new (K := K) S' hK recs').perm hp (List.Perm.refl _)
    exact TopK.slots_eq_of_perm GoodWriteRecord.seqKey_pos (sorted_new.insertAll S' recs')
      (sorted_new.insertAll S recs) (by rw [SeqState.len, SeqState.len]) (htop'.unique htop hd)
      (htop'.nodup_map hd)
  have hhigh : ((new : SeqState K).insertAll S' recs').highestSeen =
      ((new : SeqState K).insertAll S recs).highestSeen := by
    simp only [highestSeen]
    rw [hlast]
  by_cases hne : recs = []
  · subst hne
    rw [hp.eq_nil]
    rfl
  · have hne' : recs' ≠ [] := by
      rintro rfl
      exact hne hp.nil_eq.symm
    have hins := inserted_insertAll_new S hK hne
    have hins' := inserted_insertAll_new S' hK hne'
    exact eq_of_fields hlast (by rw [hins'.nextSeq, hins.nextSeq, hhigh])
      (by rw [hins'.needsGc, hins.needsGc])

/-- **Inserting records with distinct numbers keeps the greatest of them, whatever
the order in which they are met and the routine that sorts the slots.** -/
theorem insertAll_keeps_top (hK : 0 < K) (hd : (recs.map GoodWriteRecord.seqKey).Nodup)
    (hmax : ∀ r ∈ recs, r.seqKey < NonZeroU32.MAX) :
    KeepsTop recs ((new : SeqState K).insertAll S recs) ∧
      ∀ (S' : SlotSorter) (recs' : List GoodWriteRecord), recs' ~ recs →
        (new : SeqState K).insertAll S' recs' = (new : SeqState K).insertAll S recs :=
  ⟨keepsTop_insertAll_new S hK hd hmax, fun S' _ hp => insertAll_new_of_perm S hK hd S' hp⟩

/-- `maker` of the test `seq_sort`. -/
def maker (seq : Nat) (h : (NonZeroU32.new seq).isSome = true) (first last : Nat) :
    GoodWriteRecord := ⟨(NonZeroU32.new seq).get h, ⟨first, last⟩⟩

/-- The records of the test, the last one first. -/
def seqSort : List GoodWriteRecord :=
  [maker 4 (by decide) 40 45, maker 3 (by decide) 30 35, maker 2 (by decide) 20 25,
    maker 1 (by decide) 10 15]

theorem insertAll_keeps_top_seqSort :
    KeepsTop seqSort ((new : SeqState 3).insertAll insertionSorter seqSort) ∧
      ∀ (S' : SlotSorter) (recs' : List GoodWriteRecord), recs' ~ seqSort →
        (new : SeqState 3).insertAll S' recs' =
          (new : SeqState 3).insertAll insertionSorter seqSort :=
  insertAll_keeps_top insertionSorter (by decide) (by decide) (by decide)

example : (((new : SeqState 3).insertAll insertionSorter seqSort).records.map
    GoodWriteRecord.seqKey) = [2, 3, 4] := by decide

end SeqState
end CfgNoodle

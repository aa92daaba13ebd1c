import Mathlib.Algebra.GroupWithZero.Nat
import CfgNoodle.Locations

/-! # What the counters count

A call that returns `Ok` reports bytes: what it has read, what it has pushed, what
it has deleted. Each of them is the size of a part of the storage. -/
namespace CfgNoodle
open Framing Outcome Runs
variable {E : Env}

/-! ## Sizes -/

/-- The bytes that some items take, as the storage counts them. -/
def bytesOf (items : List Item) : Nat := (items.map Item.len).sum

@[simp] theorem bytesOf_nil : bytesOf [] = 0 := rfl

@[simp] theorem bytesOf_cons (it : Item) (items : List Item) :
    bytesOf (it :: items) = it.len + bytesOf items := List.sum_cons

@[simp] theorem bytesOf_append (a b : List Item) : bytesOf (a ++ b) = bytesOf a + bytesOf b := by
  unfold bytesOf
  rw [List.map_append, List.sum_append]

theorem bytesOf_eraseIdx (kept : List Item) (it : Item) (items : List Item) :
    bytesOf ((kept ++ it :: items).eraseIdx kept.length) + it.len = bytesOf (kept ++ it :: items) := by
  rw [List.eraseIdx_append_of_length_le (Nat.le_refl _), Nat.sub_self, List.eraseIdx_cons_zero,
    bytesOf_append, bytesOf_append, bytesOf_cons]
  omega

/-! ## Reading -/

theorem scanStep_bytesRead (crc : List UInt8 → UInt32) (l : ScanLocals) (it : Item) :
    (scanStep crc l it).1.bytesRead = l.bytesRead + it.len := by
  unfold scanStep
  split
  · rfl
  · rfl
  · dsimp only
    split <;> rfl
  · dsimp only
    split
    · rfl
    · split
      · rfl
      · split <;> rfl

theorem scanLocals_bytesRead (crc : List UInt8 → UInt32) : ∀ (items : List Item) (l : ScanLocals),
    (scanLocals crc l items).bytesRead = l.bytesRead + bytesOf items
  | [], _ => rfl
  | it :: items, l => by
    have ih := scanLocals_bytesRead crc items (scanStep crc l it).1
    rw [scanStep_bytesRead] at ih
    rw [bytesOf_cons, ← Nat.add_assoc]
    exact ih

/-- A scan reads the whole storage. -/
def scanned (w : World E) : Nat := if w.seqState.initialScanCompleted then 0 else bytesOf w.items

theorem getOrPopulateLatest_counts (b : Nat) (w : World E) :
    Ends (getOrPopulateLatest b) w (fun a w' => a.2 = b + scanned w ∧ w'.items = w.items)
      fun _ _ => True := by
  unfold getOrPopulateLatest scanned
  refine .bind (.get ?_)
  cases hc : w.seqState.initialScanCompleted with
  | true =>
    show Ends (if w.seqState.initialScanCompleted = true then _ else _) w _ _
    rw [if_pos hc]
    exact .pure ⟨rfl, rfl⟩
  | false =>
    show Ends (if w.seqState.initialScanCompleted = true then _ else _) w _ _
    rw [if_neg (by rw [hc]; exact Bool.false_ne_true)]
    refine ((iterElems_spec w).mono ?_ fun _ _ _ => trivial).bind
    intro items w1 h
    obtain ⟨rfl, r1, _, rfl⟩ := h
    refine ((scanLoop_spec _ _ _).mono ?_ fun _ _ _ => trivial).bind
    intro l w2 h
    obtain ⟨rfl, rest, _, rfl⟩ := h
    exact .bind (.get (.bind (.modify (.pure ⟨scanLocals_bytesRead E.crc _ _, rfl⟩))))

theorem skipLoop_counts (rest : List Item) : ∀ (pre : List Item) (total : Nat) (w : World E),
    Ends (skipLoop pre.length total (pre ++ rest)) w
      (fun a w' => a.1 = rest ∧ a.2 = total + bytesOf pre ∧ w'.items = w.items) fun _ _ => True
  | [], total, w => .pure ⟨rfl, rfl, rfl⟩
  | it :: pre, total, w => by
    rw [List.length_cons, List.cons_append, skipLoop]
    refine ((nextOr_spec _ w).mono ?_ fun _ _ _ => trivial).bind
    intro _ w1 h
    obtain ⟨r1, _, rfl⟩ := h
    refine (skipLoop_counts rest pre _ _).mono ?_ fun _ _ _ => trivial
    intro a w2 h
    obtain ⟨ha, htotal, hitems⟩ := h
    exact ⟨ha, by rw [htotal, bytesOf_cons, Nat.add_assoc], hitems⟩

theorem extractLoop_counts {latest : GoodWriteRecord} {c : Item} {crc : UInt32}
    (hc : c.data = some (.end latest.seq crc)) (post : List Item) :
    ∀ (bs : List Item) (total current : Nat) (w : World E),
      (∀ b ∈ bs, ∃ d, b.data = some (.data d)) →
      Ends (extractLoop latest total current (bs ++ c :: post)) w
        (fun a _ => a.1 = total + bytesOf (bs ++ [c]) ∧ a.2 = current + bytesOf bs) fun _ _ => True
  | [], total, current, w, _ => by
    rw [List.nil_append, extractLoop]
    refine ((nextOr_spec _ w).mono ?_ fun _ _ _ => trivial).bind
    intro _ w1 _
    simp only [hc, if_true]
    exact .pure ⟨rfl, rfl⟩
  | b :: bs, total, current, w, hb => by
    obtain ⟨d, hd⟩ := hb b List.mem_cons_self
    rw [List.cons_append, extractLoop]
    refine ((nextOr_spec _ w).mono ?_ fun _ _ _ => trivial).bind
    intro _ w1 _
    simp only [hd]
    refine .bind (.modify ?_)
    refine (extractLoop_counts hc post bs _ _ _ fun b' h' => hb b' (List.mem_cons_of_mem _ h')).mono ?_
      fun _ _ _ => trivial
    intro a w2 h
    obtain ⟨htotal, hcurrent⟩ := h
    rw [htotal, hcurrent, List.cons_append, bytesOf_cons, bytesOf_cons]
    exact ⟨Nat.add_assoc .., Nat.add_assoc ..⟩

/-- The data elements of a record. -/
def Record.body (f : Record) : List Item := f.seg.filter Item.isBody

/-- The items of a storage up to the end of a record. -/
def upTo (items : List Item) (f : Record) : List Item := items.take (f.last + 1)

theorem extractAll_counts {latest : GoodWriteRecord} {w : World E} {f : Record}
    (hf : Points (E := E) w.items latest f) (total : Nat) :
    Ends (extractAll latest total) w
      (fun a _ => a.1 = total + bytesOf (upTo w.items f) ∧ a.2 = bytesOf f.body) fun _ _ => True := by
  obtain ⟨pre, post, hs, hk, hitems⟩ := (mem_frames _).mp hf.mem
  obtain ⟨o, bs, c, hseg, ho, hb, hc, _⟩ := IsRecord.elim hk
  have hsplit : w.items = pre ++ o :: (bs ++ c :: post) := by
    rw [hitems, hseg, List.append_assoc, List.cons_append, List.append_assoc, List.singleton_append]
  have hlast : f.last + 1 = (pre ++ o :: (bs ++ [c])).length := by
    have hdef : f.last = f.start + f.seg.length - 1 := rfl
    rw [hdef, hseg, hs]
    simp
    omega
  have hupTo : upTo w.items f = pre ++ o :: (bs ++ [c]) := by
    unfold upTo
    rw [hlast, hsplit, show pre ++ o :: (bs ++ c :: post) = pre ++ o :: (bs ++ [c]) ++ post by simp]
    exact List.take_left
  have hbody : f.body = bs := by
    have hbs : bs.filter Item.isBody = bs := List.filter_eq_self.mpr fun b hb' => by
      obtain ⟨d, hd⟩ := hb b hb'
      unfold Item.isBody
      rw [hd]
    unfold Record.body
    rw [hseg, List.filter_cons_of_neg, List.filter_append, hbs, List.filter_cons_of_neg, List.filter_nil,
      List.append_nil]
    · unfold Item.isBody
      rw [hc]
      exact Bool.false_ne_true
    · unfold Item.isBody
      rw [ho]
      exact Bool.false_ne_true
  simp only [extractAll]
  refine ((iterElems_spec w).mono ?_ fun _ _ _ => trivial).bind
  intro items w1 h
  obtain ⟨rfl, r1, _, rfl⟩ := h
  have hskip := skipLoop_counts (o :: (bs ++ c :: post)) pre total (w.withReads r1)
  rw [← hsplit, ← hs, ← hf.first] at hskip
  refine (hskip.mono ?_ fun _ _ _ => trivial).bind
  intro a w2 h
  obtain ⟨ha, htotal, _⟩ := h
  refine ((nextOr_spec _ _).mono ?_ fun _ _ _ => trivial).bind
  intro _ w3 _
  rw [ha]
  simp only [ho, hf.seq]
  rw [if_neg (by simp)]
  refine (extractLoop_counts (by rw [hc, hf.seq]) post bs _ _ _ hb).mono ?_ fun _ _ _ => trivial
  intro a' w4 h
  obtain ⟨h1, h2⟩ := h
  rw [h1, h2, htotal, hupTo, hbody, bytesOf_append pre, bytesOf_cons]
  exact ⟨by omega, Nat.zero_add _⟩

/-- `process_reads` reports what it scanned and then went through again up to the end
of the greatest record in the cache, and what of that are data elements of the record. -/
def ReadCounts (w : World E) (c : ProcessReadCounters) : Prop :=
  match (populate E w.items w.seqState).highestSeen with
  | none => c = ⟨scanned w, 0⟩
  | some r => ∃ f, Points (E := E) w.items r f ∧
    c = ⟨scanned w + bytesOf (upTo w.items f), bytesOf f.body⟩

theorem processReads_counts {w : World E} (hl : Located w.items w.seqState) :
    Ends processReads w (fun c _ => ReadCounts w c) fun _ _ => True := by
  have hloc := hl.populate
  simp only [processReads]
  refine (((getOrPopulateLatest_spec 0 w).and (getOrPopulateLatest_counts 0 w)).mono ?_
    fun _ _ _ => trivial).bind
  intro a w1 h
  obtain ⟨res, total⟩ := a
  obtain ⟨⟨ha, _, r1, _, _, rfl⟩, htotal, _⟩ := h
  simp only at ha htotal
  rw [Nat.zero_add] at htotal
  cases hres : res with
  | none =>
    refine .bind (.pure (.bind (.modify (.pure ?_))))
    unfold ReadCounts
    rw [← ha, hres, htotal]
  | some latest =>
    rw [hres] at ha
    obtain ⟨f, hf⟩ := hloc latest (SeqState.mem_records_of_highestSeen ha.symm)
    have hext := extractAll_counts (w := (w.withSeq (populate E w.items w.seqState)).withReads r1)
      hf total
    refine (hext.mono ?_ fun _ _ _ => trivial).bind
    intro a w2 h
    obtain ⟨h1, h2⟩ := h
    refine .bind (.modify (.pure ?_))
    unfold ReadCounts
    rw [← ha]
    refine ⟨f, hf, ?_⟩
    rw [h1, h2, htotal]
    rfl

/-! ## Writing -/

theorem push_counts (elem : Elem) (w : World E) :
    Ends (push elem) w (fun used w' => bytesOf w'.items = bytesOf w.items + used) fun _ _ => True := by
  have hwhole : bytesOf (w.items ++ [stored E w.call elem]) = bytesOf w.items + E.size elem := by
    rw [bytesOf_append]
    rfl
  simp only [Ends, push]
  cases w.faults.pushes with
  | nil => exact hwhole
  | cons a rest =>
    cases a with
    | ok => exact hwhole
    | err e l => trivial
    | cut l => trivial

theorem writeLoop_counts (bufLen : Nat) : ∀ (list : List E.Id) (crc : Crc32) (written ctr : Nat)
    (w : World E), Ends (writeLoop bufLen crc written ctr list) w
      (fun a w' => bytesOf w'.items + written = bytesOf w.items + a.2.1) fun _ _ => True
  | [], _, _, _, _ => .pure rfl
  | i :: list, crc, written, ctr, w => by
    simp only [writeLoop]
    refine .bind (.get ?_)
    by_cases hv : (w.cells i).state.hasValue = true
    · simp only [hv, if_true]
      cases (w.cells i).t with
      | none => exact .throw trivial
      | some t =>
        dsimp only
        cases nodeElem E bufLen i t with
        | none => exact .throw trivial
        | some d =>
          refine ((push_counts (.data d) w).mono ?_ fun _ _ _ => trivial).bind
          intro used w1 h
          refine (writeLoop_counts bufLen list _ _ _ w1).mono ?_ fun _ _ _ => trivial
          intro a w2 h'
          omega
    · simp only [hv]
      exact writeLoop_counts bufLen list crc written ctr w

theorem writeToFlash_counts (bufLen : Nat) (s : NonZeroU32) (w : World E) :
    Ends (writeToFlash bufLen s) w
      (fun rpt w' => bytesOf w'.items = bytesOf w.items + rpt.bytesWritten) fun _ _ => True := by
  simp only [writeToFlash]
  refine ((push_counts (.start s) w).mono ?_ fun _ _ _ => trivial).bind
  intro used w1 h1
  refine .bind (.get ?_)
  refine ((writeLoop_counts bufLen _ _ _ _ w1).mono ?_ fun _ _ _ => trivial).bind
  intro a w2 h2
  obtain ⟨crc, written, ctr⟩ := a
  refine ((push_counts _ w2).mono ?_ fun _ _ _ => trivial).bind
  intro used' w3 h3
  refine .pure ?_
  dsimp only at h2 ⊢
  omega

/-- The verification has gone through this many items, up to the first `Start`. -/
theorem verifySkip_counts (s : NonZeroU32) : ∀ (items : List Item) (seen total : Nat) (w : World E),
    Ends (verifySkip s seen total items) w
      (fun a _ => ∃ n, a.2.1 = seen + n ∧ a.1 = items.drop n ∧ a.2.2 = total + bytesOf (items.take n))
      fun _ _ => True
  | [], seen, total, w => by
    simp only [verifySkip]
    exact ((nextOr_spec _ w).mono (fun _ _ _ => .throw trivial) fun _ _ _ => trivial).bind
  | it :: items, seen, total, w => by
    simp only [verifySkip]
    refine ((nextOr_spec _ w).mono ?_ fun _ _ _ => trivial).bind
    intro _ w1 _
    by_cases hd : it.data = some (.start s)
    · rw [if_pos hd]
      exact .pure ⟨1, rfl, rfl, rfl⟩
    · rw [if_neg hd]
      refine (verifySkip_counts s items _ _ w1).mono ?_ fun _ _ _ => trivial
      intro a w2 h
      obtain ⟨n, hseen, hrest, htotal⟩ := h
      refine ⟨n + 1, by omega, hrest, ?_⟩
      rw [htotal, List.take_succ_cons, bytesOf_cons, Nat.add_assoc]

/-- ... and from there up to the end of the range. -/
theorem verifyLoop_counts (rpt : WriteReport) (startPos : Nat) : ∀ (items : List Item)
    (seen : Nat) (crc : Crc32) (consumed total : Nat) (w : World E),
    Ends (verifyLoop rpt startPos seen crc consumed total items) w
      (fun a _ => ∃ n, a.1 = ⟨startPos, seen + n⟩ ∧ a.2 = total + bytesOf (items.take n))
      fun _ _ => True
  | [], seen, crc, consumed, total, w => by
    simp only [verifyLoop]
    exact ((nextOr_spec _ w).mono (fun _ _ _ => .throw trivial) fun _ _ _ => trivial).bind
  | it :: items, seen, crc, consumed, total, w => by
    simp only [verifyLoop]
    refine ((nextOr_spec _ w).mono ?_ fun _ _ _ => trivial).bind
    intro _ w1 _
    cases it.data with
    | none => exact .throw trivial
    | some e =>
      cases e with
      | start s => exact .throw trivial
      | data d =>
        refine (verifyLoop_counts rpt startPos items _ _ _ _ w1).mono ?_ fun _ _ _ => trivial
        intro a w2 h
        obtain ⟨n, hrange, htotal⟩ := h
        refine ⟨n + 1, ?_, ?_⟩
        · rw [hrange, Nat.add_assoc, Nat.add_comm 1]
        · rw [htotal, List.take_succ_cons, bytesOf_cons, Nat.add_assoc]
      | «end» s c =>
        dsimp only
        split
        · exact .pure ⟨1, rfl, rfl⟩
        · exact .throw trivial

theorem verifyListInFlash_counts (rpt : WriteReport) (w : World E) :
    Ends (verifyListInFlash rpt 0) w
      (fun a _ => a.2 = bytesOf (w.items.take a.1.last)) fun _ _ => True := by
  simp only [verifyListInFlash]
  refine ((iterElems_spec w).mono ?_ fun _ _ _ => trivial).bind
  intro items w1 h
  obtain ⟨rfl, r1, _, rfl⟩ := h
  refine ((verifySkip_counts rpt.seq w.items 0 0 _).mono ?_ fun _ _ _ => trivial).bind
  intro a w2 h
  obtain ⟨rest, seen, total⟩ := a
  obtain ⟨n, hseen, hrest, htotal⟩ := h
  dsimp only at hseen hrest htotal ⊢
  refine (verifyLoop_counts rpt (seen - 1) rest seen .new 0 total w2).mono ?_ fun _ _ _ => trivial
  intro a w3 h
  obtain ⟨m, hrange, hread⟩ := h
  rw [hread, hrange, htotal, hseen, hrest, Nat.zero_add, Nat.zero_add, List.take_add, bytesOf_append]

/-- `process_writes` reports what it has pushed, and what it read to verify it: the
storage up to the end of the range that is then cached. -/
def WriteCounts (w : World E) (c : ProcessWriteCounters) (w' : World E) : Prop :=
  bytesOf w'.items = bytesOf w.items + c.currentBytesWritten ∧
    (c.totalBytesRead = 0 ∧ w'.items = w.items ∨ ∃ r, w'.seqState = w.seqState.insertGood E.sorter r ∧
      c.totalBytesRead = bytesOf (w'.items.take r.range.last))

theorem processWrites_counts (bufLen : Nat) (w : World E) :
    Ends (processWrites bufLen) w (fun c w' => WriteCounts w c w') fun _ _ => True := by
  simp only [processWrites]
  refine .bind (.get ?_)
  cases w.seqState.nextSeq with
  | none => exact .throw trivial
  | some s =>
    dsimp only
    split
    · exact .throw trivial
    · cases needsWriting w with
      | error e => exact .throw trivial
      | ok due =>
        cases due with
        | false => exact .pure ⟨rfl, Or.inl ⟨rfl, rfl⟩⟩
        | true =>
          refine (((writeToFlash_counts bufLen s w).and (writeToFlash_spec bufLen s w)).mono ?_
            fun _ _ _ => trivial).bind
          intro rpt w1 h
          obtain ⟨hwritten, _, _, _, _, f1, _, rfl⟩ := h
          refine (((verifyListInFlash_counts rpt _).and (verifyListInFlash_spec rpt _)).mono ?_
            fun _ _ _ => trivial).bind
          intro a w2 h
          obtain ⟨range, total⟩ := a
          obtain ⟨hread, _, f2, _, rfl⟩ := h
          exact .bind (.modify (.bind (.modify (.pure ⟨hwritten, Or.inr ⟨⟨s, range⟩, rfl, hread⟩⟩))))

/-! ## Collecting -/

theorem gcLoop_counts (cur : SeqState E.kept) : ∀ (items : List Item) (idx : Nat) (kept : List Item)
    (total popped : Nat) (w : World E), w.items = kept ++ items →
    Ends (gcLoop cur idx kept.length total popped items) w
      (fun a w' => a.1 = total + bytesOf items ∧ a.2 + bytesOf w'.items = popped + bytesOf w.items)
      fun _ _ => True
  | [], idx, kept, total, popped, w, _ => by
    simp only [gcLoop]
    refine ((nextOr_spec _ w).mono ?_ fun _ _ _ => trivial).bind
    intro _ w1 h
    obtain ⟨r, _, rfl⟩ := h
    exact .pure ⟨rfl, rfl⟩
  | it :: items, idx, kept, total, popped, w, hw => by
    simp only [gcLoop]
    refine ((nextOr_spec _ w).mono ?_ fun _ _ _ => trivial).bind
    intro _ w1 h
    obtain ⟨r1, _, rfl⟩ := h
    split
    · refine ((invalidate_spec _ _).mono ?_ fun _ _ _ => trivial).bind
      intro _ w2 h
      obtain ⟨f2, _, rfl⟩ := h
      have herase : w.items.eraseIdx kept.length = kept ++ items := by
        rw [hw, List.eraseIdx_append_of_length_le (Nat.le_refl _), Nat.sub_self]
        rfl
      refine (gcLoop_counts cur items (idx + 1) kept _ _ _ herase).mono ?_ fun _ _ _ => trivial
      intro a w3 h
      obtain ⟨htotal, hpopped⟩ := h
      have hless := bytesOf_eraseIdx kept it items
      rw [← hw] at hless
      have hpopped : a.2 + bytesOf w3.items =
        popped + it.len + bytesOf (w.items.eraseIdx kept.length) := hpopped
      rw [bytesOf_cons]
      omega
    · have hlen : kept.length + 1 = (kept ++ [it]).length := by simp
      rw [hlen]
      refine (gcLoop_counts cur items (idx + 1) (kept ++ [it]) _ _ (w.withReads r1)
        (by rw [World.withReads_items, hw]; simp)).mono ?_ fun _ _ _ => trivial
      intro a w3 h
      obtain ⟨htotal, hpopped⟩ := h
      rw [bytesOf_cons, htotal]
      exact ⟨Nat.add_assoc .., hpopped⟩

theorem gcCollect_counts (cur : SeqState E.kept) (w : World E) :
    Ends (gcCollect cur) w
      (fun a w' => a.1 = bytesOf w.items ∧ a.2 + bytesOf w'.items = bytesOf w.items)
      fun _ _ => True := by
  simp only [gcCollect]
  refine ((iterElems_spec w).mono ?_ fun _ _ _ => trivial).bind
  intro items w1 h
  obtain ⟨rfl, r1, _, rfl⟩ := h
  refine (gcLoop_counts cur w.items 0 [] 0 0 (w.withReads r1) rfl).mono ?_ fun _ _ _ => trivial
  intro a w2 h
  rw [Nat.zero_add, Nat.zero_add] at h
  exact h

theorem gcFinish_counts (w : World E) :
    Ends gcFinish w (fun post w' => post = scanned w ∧ w'.items = w.items) fun _ _ => True := by
  simp only [gcFinish]
  refine ((getOrPopulateLatest_counts 0 w).mono ?_ fun _ _ _ => trivial).bind
  intro a w1 h
  obtain ⟨hpost, hitems⟩ := h
  exact .bind (.modify (.pure ⟨hpost.trans (Nat.zero_add _), hitems⟩))

/-- `process_garbage` reports what it has deleted, and what it has read: the storage
before and what is left of it. -/
def GarbageCounts (w : World E) (c : ProcessGarbageCounters) (w' : World E) : Prop :=
  c.totalBytesPopped + bytesOf w'.items = bytesOf w.items ∧
    if w.seqState.needsGc then
      c.postCollectionBytesRead = bytesOf w'.items ∧
        c.totalBytesRead = bytesOf w.items + bytesOf w'.items
    else c.postCollectionBytesRead = 0 ∧ c.totalBytesRead = 0

/-- The cache is taken exactly if a collection is due. -/
theorem gcTake_due (w : World E) :
    Ends gcTake w
      (fun a w' => w.seqState.needsGc = false ∧ a = none ∧ w' = w ∨
        w.seqState.needsGc = true ∧ a = some w.seqState ∧ w' = w.withSeq .new)
      fun _ _ => False := by
  simp only [gcTake]
  refine .bind (.get ?_)
  cases hgc : w.seqState.needsGc with
  | true => exact .bind (.modify (.pure (Or.inr ⟨rfl, rfl, rfl⟩)))
  | false => exact .pure (Or.inl ⟨rfl, rfl, rfl⟩)

theorem processGarbage_counts (w : World E) :
    Ends processGarbage w (fun c w' => GarbageCounts w c w') fun _ _ => True := by
  simp only [processGarbage]
  refine ((gcTake_due w).mono ?_ fun _ _ h => h.elim).bind
  intro taken w1 h
  unfold GarbageCounts
  rcases h with ⟨hgc, rfl, rfl⟩ | ⟨hgc, rfl, rfl⟩
  · refine .pure ⟨Nat.zero_add _, ?_⟩
    rw [hgc]
    exact ⟨rfl, rfl⟩
  · refine (((gcCollect_counts w.seqState _).and (gcCollect_spec w.seqState _)).mono ?_
      fun _ _ _ => trivial).bind
    intro a w2 h
    obtain ⟨total, popped⟩ := a
    obtain ⟨⟨htotal, hpopped⟩, fs, _, rfl⟩ := h
    refine ((gcFinish_counts _).mono ?_ fun _ _ _ => trivial).bind
    intro post w3 h
    obtain ⟨hpost, hitems⟩ := h
    refine .pure ?_
    rw [← hitems] at hpopped
    have hleft : post = bytesOf w3.items := by
      rw [hpost, hitems]
      rfl
    refine ⟨hpopped, ?_⟩
    rw [if_pos hgc]
    refine ⟨hleft, ?_⟩
    show total + post = bytesOf w.items + bytesOf w3.items
    rw [hleft]
    exact congrArg (· + _) htotal

/-! ## Every counter -/

/-- In every state that a run reaches, whatever has failed or was dropped in it, a
call that returns `Ok` reports what it has read, pushed and deleted. -/
theorem counters_exact {s : Service E} (hs : (service E).Reachable s) (fs : Faults E.Err) :
    (∀ c w', processReads (s.world.withFaults fs) = .ok c w' → ReadCounts s.world c) ∧
      (∀ bufLen c w', processWrites bufLen (s.world.withFaults fs) = .ok c w' →
        WriteCounts s.world c w') ∧
      ∀ c w', processGarbage (s.world.withFaults fs) = .ok c w' →
        GarbageCounts s.world c w' := by
  have hl : Located (s.world.withFaults fs).items (s.world.withFaults fs).seqState :=
    (sound_service hs).cache.located
  refine ⟨fun c w' hx => (processReads_counts hl).ok hx, fun bufLen c w' hx => ?_, fun c w' hx => ?_⟩
  · exact (processWrites_counts bufLen (s.world.withFaults fs)).ok hx
  · exact (processGarbage_counts (s.world.withFaults fs)).ok hx

/-- A list that has read two records, collected what was due and then stored a third. -/
def thirdRecord : Service twoSettings :=
  [.processReads .none, .gcTake, .gcCollect .none, .gcFinish .none,
    .nodes [settingA] (flushing [] .new).cells, .processWrites 64 .none].foldl Service.next
      ⟨World.boot twoRecords, .idle⟩

theorem counters_exact_third_record :
    thirdRecord.world.items =
        twoRecords ++ recordItems twoSettings ⟨3, by decide, by decide⟩ [dataA 7] 0 ∧
      thirdRecord.world.seqState.needsGc = true ∧
      (∃ c w', processGarbage (thirdRecord.world.withFaults .none) = .ok c w') ∧
      (∀ c w', processReads (thirdRecord.world.withFaults .none) = .ok c w' →
        ReadCounts thirdRecord.world c) ∧
      (∀ bufLen c w', processWrites bufLen (thirdRecord.world.withFaults .none) = .ok c w' →
        WriteCounts thirdRecord.world c w') ∧
      ∀ c w', processGarbage (thirdRecord.world.withFaults .none) = .ok c w' →
        GarbageCounts thirdRecord.world c w' := by
  have hreach : (service twoSettings).Reachable thirdRecord :=
    System.reachable_foldl (fun _ _ _ => rfl) (.init ⟨twoRecords, rfl⟩)
  obtain ⟨c, hx⟩ := processGarbage_run (w := thirdRecord.world.withFaults .none) rfl
  exact ⟨by decide +kernel, by decide +kernel, ⟨c, _, hx⟩, counters_exact hreach .none⟩

end CfgNoodle

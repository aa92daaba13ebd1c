import CfgNoodle.Garbage

/-! # What `process_writes` does

The record that a call pushes, what is in the storage where a push fails, and
when the read-back verification accepts. -/
namespace CfgNoodle
open Framing Outcome
open scoped List
variable {E : Env}

/-! ## The record of a call -/

/-- An element as it is stored. -/
def stored (E : Env) (call : Nat) (e : Elem) : Item := ⟨some e, E.size e, call⟩

/-- The data elements of the nodes with a value, up to the first node that
cannot be written, and why it cannot. -/
def writeDatas (bufLen : Nat) (cells : Cells E) : List E.Id → List SerData × Option (Stop E.Err)
  | [] => ([], none)
  | i :: list =>
    if (cells i).state.hasValue then
      match (cells i).t with
      | none => ([], some .ub)
      | some t =>
        match nodeElem E bufLen i t with
        | none => ([], some (.error (.appError .serialization)))
        | some d => (d :: (writeDatas bufLen cells list).1, (writeDatas bufLen cells list).2)
    else writeDatas bufLen cells list

/-- The bytes of some data elements that go into the checksum. -/
def crcBytes (ds : List SerData) : List UInt8 := (ds.map SerData.keyVal).flatten

/-- The elements of a complete record. -/
def recordElems (E : Env) (seq : NonZeroU32) (ds : List SerData) : List Elem :=
  .start seq :: (ds.map .data ++ [.end seq (E.crc (crcBytes ds))])

/-- The same as stored by a call. -/
def recordItems (E : Env) (seq : NonZeroU32) (ds : List SerData) (call : Nat) : List Item :=
  (recordElems E seq ds).map (stored E call)

theorem crcBytes_cons (d : SerData) (ds : List SerData) :
    crcBytes (d :: ds) = d.keyVal ++ crcBytes ds := by
  simp [crcBytes]

theorem keyVals_stored (ds : List SerData) (call : Nat) :
    keyVals (ds.map fun d => stored E call (.data d)) = crcBytes ds := by
  simp only [keyVals, crcBytes]
  rw [List.map_map]
  rfl

theorem isRecord_recordItems (seq : NonZeroU32) (ds : List SerData) (call : Nat) :
    IsRecord E seq (recordItems E seq ds call) := by
  refine ⟨stored E call (.start seq), ds.map fun d => stored E call (.data d),
    stored E call (.end seq (E.crc (crcBytes ds))), by simp [recordItems, recordElems], rfl, ?_, ?_⟩
  · intro b hb
    obtain ⟨d, _, rfl⟩ := List.mem_map.mp hb
    rfl
  · show (stored E call (.end seq (E.crc (crcBytes ds)))).closes E.crc seq _ = true
    simp only [Item.closes, stored]
    simp only [decide_true, Bool.true_and]
    exact decide_eq_true (congrArg E.crc (keyVals_stored ds call).symm)

/-! ## Pushing -/

/-- What a push leaves behind that does not return `Ok`. -/
def PushAnswer.left {ε : Type} : PushAnswer ε → Option Left
  | ok => none
  | err _ l => some l
  | cut l => some l

/-- Some push of the script may leave this behind. -/
def Faults.CanLeave {ε : Type} (fs : Faults ε) (l : Left) : Prop := ∃ a ∈ fs.pushes, a.left = some l

theorem Spent.canLeave {ε : Type} {fs fs' : Faults ε} (h : Spent fs fs') {l : Left}
    (hc : fs'.CanLeave l) : fs.CanLeave l := by
  obtain ⟨a, ha, hl⟩ := hc
  exact ⟨a, h.pushes.subset ha, hl⟩

theorem push_spec (elem : Elem) (w : World E) :
    Ends (push elem) w
      (fun _ w' => ∃ fs, Spent w.faults fs ∧
        w' = (w.withItems (w.items ++ [stored E w.call elem])).withFaults fs)
      (fun e w' => w.faults.CanStop e ∧ ∃ l fs, w.faults.CanLeave l ∧ Spent w.faults fs ∧
        w' = (w.withItems (w.items ++ l.items w.call elem (E.size elem))).withFaults fs) := by
  simp only [Ends, push]
  cases h : w.faults.pushes with
  | nil => exact ⟨w.faults, .refl _, rfl⟩
  | cons a rest =>
    have hs : Spent w.faults { w.faults with pushes := rest } :=
      ⟨List.suffix_rfl, h ▸ List.suffix_cons a rest, List.suffix_rfl⟩
    have hmem : a ∈ w.faults.pushes := by rw [h]; exact List.mem_cons_self
    cases a with
    | ok => exact ⟨_, hs, rfl⟩
    | err e l => exact ⟨Or.inr (Or.inl ⟨_, hmem, rfl⟩), l, _, ⟨_, hmem, rfl⟩, hs, rfl⟩
    | cut l => exact ⟨Or.inr (Or.inl ⟨_, hmem, rfl⟩), l, _, ⟨_, hmem, rfl⟩, hs, rfl⟩

theorem Left.items_length_le (l : Left) (call : Nat) (elem : Elem) (len : Nat) :
    (l.items call elem len).length ≤ 1 := by
  cases l with
  | nothing => exact Nat.zero_le _
  | torn n => exact Nat.le_refl _
  | whole => exact Nat.le_refl _

/-- What stands in a storage after a part of a record was pushed: some of its
elements, and an undecodable item where a push was torn. The whole of it was
pushed only if a push that did not return `Ok` stored its element. -/
inductive Partly (fs : Faults E.Err) (call : Nat) (elems : List Elem) : List Item → Prop
  | some (es rest : List Elem) (hne : rest ≠ []) (h : es ++ rest = elems) :
      Partly fs call elems (es.map (stored E call))
  | torn (es rest : List Elem) (n : Nat) (hne : rest ≠ []) (h : es ++ rest = elems) :
      Partly fs call elems (es.map (stored E call) ++ [⟨none, n, call⟩])
  | whole (hl : fs.CanLeave .whole) (es rest : List Elem) (h : es ++ rest = elems) :
      Partly fs call elems (es.map (stored E call))

theorem Partly.of_push {fs : Faults E.Err} {l : Left} (hl : fs.CanLeave l) (call : Nat) (e : Elem)
    (rest : List Elem) : Partly fs call (e :: rest) (l.items call e (E.size e)) := by
  cases l with
  | nothing => exact .some [] _ (List.cons_ne_nil _ _) rfl
  | torn n => exact .torn [] _ n (List.cons_ne_nil _ _) rfl
  | whole => exact .whole hl [e] rest rfl

theorem Partly.prepend {fs fs' : Faults E.Err} (hs : Spent fs fs') {call : Nat} {elems : List Elem}
    {items : List Item} (h : Partly fs' call elems items) (pre : List Elem) :
    Partly fs call (pre ++ elems) (pre.map (stored E call) ++ items) := by
  cases h with
  | some es rest hne h =>
    rw [← List.map_append]
    exact .some _ rest hne (by rw [← h, List.append_assoc])
  | torn es rest n hne h =>
    rw [← List.append_assoc, ← List.map_append]
    exact .torn _ rest n hne (by rw [← h, List.append_assoc])
  | whole hl es rest h =>
    rw [← List.map_append]
    exact .whole (hs.canLeave hl) _ rest (by rw [← h, List.append_assoc])

/-- The loop over the nodes pushes their data elements in list order. `post` is
what is still to come when it returns. -/
theorem writeLoop_spec (bufLen : Nat) (post : List Elem) (hpost : post ≠ []) :
    ∀ (list : List E.Id) (crc : Crc32) (bytes ctr : Nat) (w : World E),
    Ends (writeLoop bufLen crc bytes ctr list) w
      (fun a w' => (writeDatas bufLen w.cells list).2 = none ∧
        a.1.data = crc.data ++ crcBytes (writeDatas bufLen w.cells list).1 ∧
        a.2.2 = ctr + (writeDatas bufLen w.cells list).1.length ∧ ∃ fs, Spent w.faults fs ∧
        w' = (w.withItems (w.items ++
          ((writeDatas bufLen w.cells list).1.map Elem.data).map (stored E w.call))).withFaults fs)
      (fun e w' => (w.faults.CanStop e ∨ (writeDatas bufLen w.cells list).2 = some e) ∧
        ∃ items fs, Spent w.faults fs ∧
          Partly w.faults w.call ((writeDatas bufLen w.cells list).1.map Elem.data ++ post) items ∧
          items.length ≤ (writeDatas bufLen w.cells list).1.length ∧
          w' = (w.withItems (w.items ++ items)).withFaults fs)
  | [], crc, bytes, ctr, w => by
    refine .pure ⟨rfl, ?_, rfl, w.faults, .refl _, ?_⟩
    · simp [writeDatas, crcBytes]
    · simp [writeDatas, World.withItems, World.withFaults]
  | i :: list, crc, bytes, ctr, w => by
    simp only [writeLoop]
    refine .bind (.get ?_)
    by_cases hv : (w.cells i).state.hasValue = true
    · rw [writeDatas, if_pos hv]
      simp only [hv, if_true]
      cases ht : (w.cells i).t with
      | none =>
        refine .throw ⟨Or.inr rfl, _, w.faults, .refl _, .some [] post hpost rfl, Nat.le_refl _, ?_⟩
        simp [World.withItems, World.withFaults]
      | some t =>
        cases hd : nodeElem E bufLen i t with
        | none =>
          simp only [hd]
          refine .throw ⟨Or.inr rfl, _, w.faults, .refl _, .some [] post hpost rfl, Nat.le_refl _, ?_⟩
          simp [World.withItems, World.withFaults]
        | some d =>
          simp only [hd]
          refine ((push_spec (.data d) w).mono ?_ ?_).bind
          · intro used w1 h
            obtain ⟨f1, hs1, rfl⟩ := h
            refine (writeLoop_spec bufLen post hpost list _ _ _ _).mono ?_ ?_
            · intro a w2 h
              obtain ⟨hn, hc, hl, fs, hs, rfl⟩ := h
              refine ⟨hn, ?_, ?_, fs, hs1.trans hs, ?_⟩
              · rw [hc, crcBytes_cons, ← List.append_assoc]; rfl
              · rw [hl, List.length_cons, Nat.add_assoc, Nat.add_comm 1]; rfl
              · simp [World.withItems, World.withFaults]
            · intro e w2 h
              obtain ⟨hc, items, fs, hs, hp, hlen, rfl⟩ := h
              refine ⟨hc.imp_left hs1.canStop, _, fs, hs1.trans hs, hp.prepend hs1 [.data d],
                Nat.succ_le_succ hlen, ?_⟩
              simp [World.withItems, World.withFaults]
          · intro e w1 h
            obtain ⟨hc, l, fs, hl, hs, rfl⟩ := h
            refine ⟨Or.inl hc, _, fs, hs, .of_push hl _ _ _, ?_, rfl⟩
            exact (l.items_length_le _ _ _).trans (Nat.succ_le_succ (Nat.zero_le _))
    · rw [writeDatas, if_neg hv]
      simp only [hv]
      exact writeLoop_spec bufLen post hpost list crc bytes ctr w

/-- The data elements that a call would push. -/
def World.toWrite (w : World E) (bufLen : Nat) : List SerData := (writeDatas bufLen w.cells w.list).1

/-- A complete record was pushed, or a part of it up to a failing push or a node
that cannot be written. Where that part is the record all the same, there was no
such node. -/
theorem writeToFlash_spec (bufLen : Nat) (seq : NonZeroU32) (w : World E) :
    Ends (writeToFlash bufLen seq) w
      (fun rpt w' => (writeDatas bufLen w.cells w.list).2 = none ∧ rpt.seq = seq ∧
        rpt.crc = E.crc (crcBytes (w.toWrite bufLen)) ∧ rpt.ct = (w.toWrite bufLen).length ∧
        ∃ fs, Spent w.faults fs ∧
          w' = (w.withItems (w.items ++ recordItems E seq (w.toWrite bufLen) w.call)).withFaults fs)
      (fun e w' => (w.faults.CanStop e ∨ (writeDatas bufLen w.cells w.list).2 = some e) ∧
        ∃ items fs, Spent w.faults fs ∧
          Partly w.faults w.call (recordElems E seq (w.toWrite bufLen)) items ∧
          (items = recordItems E seq (w.toWrite bufLen) w.call →
            (writeDatas bufLen w.cells w.list).2 = none) ∧
          w' = (w.withItems (w.items ++ items)).withFaults fs) := by
  have hlen : (recordItems E seq (w.toWrite bufLen) w.call).length =
      (writeDatas bufLen w.cells w.list).1.length + 2 := by
    simp [recordItems, recordElems, World.toWrite]
  simp only [writeToFlash]
  refine ((push_spec (.start seq) w).mono ?_ ?_).bind
  · intro used w1 h
    obtain ⟨f1, hs1, rfl⟩ := h
    refine .bind (.get ?_)
    refine Ends.bind ((writeLoop_spec bufLen [.end seq (E.crc (crcBytes (w.toWrite bufLen)))]
      (List.cons_ne_nil _ _) _ _ _ _ _).mono ?_ ?_)
    · intro a w2 h
      obtain ⟨crc, bytes, ctr⟩ := a
      obtain ⟨hn, hc, hl, f2, hs2, rfl⟩ := h
      have hcrc : crc.finalize E.crc = E.crc (crcBytes (w.toWrite bufLen)) := congrArg E.crc hc
      simp only [hcrc]
      refine ((push_spec _ _).mono ?_ ?_).bind
      · intro used' w3 h
        obtain ⟨fs, hs3, rfl⟩ := h
        refine .pure ⟨hn, rfl, rfl, hl.trans (Nat.zero_add _), fs, (hs1.trans hs2).trans hs3, ?_⟩
        simp [World.withItems, World.withFaults, recordItems, recordElems, World.toWrite]
      · intro e w3 h
        obtain ⟨hcs, l, fs, hleave, hs3, rfl⟩ := h
        refine ⟨Or.inl ((hs1.trans hs2).canStop hcs), _, fs, (hs1.trans hs2).trans hs3,
          (Partly.of_push hleave w.call (.end seq (E.crc (crcBytes (w.toWrite bufLen)))) []).prepend
            (hs1.trans hs2) (.start seq :: (w.toWrite bufLen).map .data), fun _ => hn, ?_⟩
        simp [World.withItems, World.withFaults, World.toWrite]
    · intro e w2 h
      obtain ⟨hcs, items, fs, hs2, hp, hle, rfl⟩ := h
      refine ⟨hcs.imp_left hs1.canStop, _, fs, hs1.trans hs2, hp.prepend hs1 [.start seq],
        fun he => ?_, ?_⟩
      · have := congrArg List.length he
        simp only [List.length_append, List.length_map, List.length_singleton] at this
        have : items.length ≤ (writeDatas bufLen w.cells w.list).1.length := hle
        omega
      · simp [World.withItems, World.withFaults]
  · intro e w1 h
    obtain ⟨hcs, l, fs, hleave, hs1, rfl⟩ := h
    refine ⟨Or.inl hcs, _, fs, hs1, .of_push hleave _ _ _, fun he => ?_, rfl⟩
    have := congrArg List.length he
    have := l.items_length_le w.call (.start seq) (E.size (.start seq))
    omega

/-! ## The read-back verification -/

/-- The items continue a record of which the body items `bs0` were seen. -/
def Closes (E : Env) (rpt : WriteReport) (bs0 items : List Item) (n : Nat) : Prop :=
  ∃ bs c post, items = bs ++ c :: post ∧ (∀ b ∈ bs, ∃ d, b.data = some (.data d)) ∧
    c.data = some (.end rpt.seq rpt.crc) ∧ E.crc (keyVals (bs0 ++ bs)) = rpt.crc ∧
    (bs0 ++ bs).length = rpt.ct ∧ n = bs.length

/-- The first `Start` with the number opens a record like the one reported, and
this is its range as the verifier counts it. -/
def Verifies (E : Env) (rpt : WriteReport) (items : List Item) (range : RangeInclusive) : Prop :=
  ∃ pre o rest n, items = pre ++ o :: rest ∧ (∀ x ∈ pre, x.data ≠ some (.start rpt.seq)) ∧
    o.data = some (.start rpt.seq) ∧ Closes E rpt [] rest n ∧ range = ⟨pre.length, pre.length + n + 2⟩

theorem Closes.cons_data {rpt : WriteReport} {bs0 items : List Item} {it : Item} {d : SerData}
    (hd : it.data = some (.data d)) {n : Nat} :
    Closes E rpt bs0 (it :: items) (n + 1) ↔ Closes E rpt (bs0 ++ [it]) items n := by
  constructor
  · intro h
    obtain ⟨bs, c, post, hi, hb, hc, hcrc, hlen, hn⟩ := h
    cases bs with
    | nil => cases hn
    | cons b bs =>
      obtain ⟨rfl, rfl⟩ := List.cons.inj hi
      exact ⟨bs, c, post, rfl, fun b hb' => hb b (by simp [hb']), hc, by simpa using hcrc,
        by simpa using hlen, by simpa using hn⟩
  · intro h
    obtain ⟨bs, c, post, rfl, hb, hc, hcrc, hlen, hn⟩ := h
    refine ⟨it :: bs, c, post, rfl, ?_, hc, by simpa using hcrc, by simpa using hlen, by simp [hn]⟩
    intro b hb'
    rcases List.mem_cons.mp hb' with rfl | hb'
    · exact ⟨d, hd⟩
    · exact hb b hb'

/-- An item that is no data element closes the record or spoils it. -/
theorem Closes.cons_other {rpt : WriteReport} {bs0 items : List Item} {it : Item}
    (hd : ∀ d, it.data ≠ some (.data d)) {n : Nat} :
    Closes E rpt bs0 (it :: items) n ↔ n = 0 ∧ it.data = some (.end rpt.seq rpt.crc) ∧
      E.crc (keyVals bs0) = rpt.crc ∧ bs0.length = rpt.ct := by
  constructor
  · intro h
    obtain ⟨bs, c, post, hi, hb, hc, hcrc, hlen, hn⟩ := h
    cases bs with
    | nil =>
      obtain ⟨rfl, rfl⟩ := List.cons.inj hi
      exact ⟨hn, hc, by simpa using hcrc, by simpa using hlen⟩
    | cons b bs =>
      obtain ⟨rfl, rfl⟩ := List.cons.inj hi
      obtain ⟨d, hd'⟩ := hb it (by simp)
      exact absurd hd' (hd d)
  · intro h
    obtain ⟨rfl, hc, hcrc, hlen⟩ := h
    exact ⟨[], it, items, rfl, by simp, hc, by simpa using hcrc, by simpa using hlen, rfl⟩

/-- The errors of the verification itself. -/
def VerifyError (e : Stop E.Err) : Prop :=
  e = .error .writeVerificationFailed ∨ e = .error (.appError .inconsistentFlash)

theorem verifyLoop_spec (rpt : WriteReport) (startPos : Nat) : ∀ (items bs0 : List Item)
    (seen : Nat) (crc : Crc32) (total : Nat) (w : World E), crc.data = keyVals bs0 →
    Ends (verifyLoop rpt startPos seen crc bs0.length total items) w
      (fun a w' => (∃ n, Closes E rpt bs0 items n ∧ a.1 = ⟨startPos, seen + n + 1⟩) ∧
        ∃ fs, Spent w.faults fs ∧ w' = w.withFaults fs)
      (fun e w' => (w.faults.ReadStops e ∨ (VerifyError e ∧ ∀ n, ¬ Closes E rpt bs0 items n)) ∧
        ∃ fs, Spent w.faults fs ∧ w' = w.withFaults fs)
  | [], bs0, seen, crc, total, w, _ => by
    simp only [verifyLoop]
    refine ((nextOr_spec _ w).mono ?_ ?_).bind
    · intro _ w1 h
      obtain ⟨r, hp, rfl⟩ := h
      refine .throw ⟨Or.inr ⟨Or.inl rfl, ?_⟩, _, hp.spent, rfl⟩
      intro n hn
      obtain ⟨bs, c, post, hi, _⟩ := hn
      simp at hi
    · intro e w1 h
      obtain ⟨r, hs, rfl⟩ := h
      exact ⟨Or.inl hs.readStops, _, hs.spent, rfl⟩
  | it :: items, bs0, seen, crc, total, w, hcrc => by
    simp only [verifyLoop]
    refine ((nextOr_spec _ w).mono ?_ ?_).bind
    · intro _ w1 h
      obtain ⟨r1, hp, rfl⟩ := h
      have hbad : (∀ d, it.data ≠ some (.data d)) → (it.data = some (.end rpt.seq rpt.crc) →
          ¬ (E.crc (keyVals bs0) = rpt.crc ∧ bs0.length = rpt.ct)) →
          ∀ n, ¬ Closes E rpt bs0 (it :: items) n := by
        intro hd hno n hn
        obtain ⟨_, hc, h1, h2⟩ := (Closes.cons_other hd).mp hn
        exact hno hc ⟨h1, h2⟩
      cases hd : it.data with
      | none =>
        dsimp only
        exact .throw ⟨Or.inr ⟨Or.inl rfl, hbad (by simp [hd]) (by simp [hd])⟩, _, hp.spent, rfl⟩
      | some e =>
        cases e with
        | start s =>
          dsimp only
          exact .throw ⟨Or.inr ⟨Or.inl rfl, hbad (by simp [hd]) (by simp [hd])⟩, _, hp.spent, rfl⟩
        | data d =>
          dsimp only
          have hcrc' : (crc.update d.keyVal).data = keyVals (bs0 ++ [it]) := by
            rw [keyVals_append, ← hcrc]
            simp [Crc32.update, keyVals, Item.keyVal, hd]
          have ih := verifyLoop_spec rpt startPos items (bs0 ++ [it]) (seen + 1) _
            (total + it.len) (w.withReads r1) hcrc'
          rw [List.length_append, List.length_singleton] at ih
          refine ih.mono ?_ ?_
          · intro a w2 h
            obtain ⟨⟨n, hn, ha⟩, fs, hs, rfl⟩ := h
            refine ⟨⟨n + 1, (Closes.cons_data hd).mpr hn, ?_⟩, fs, hp.spent.trans hs, rfl⟩
            rw [ha]; congr 1; omega
          · intro e w2 h
            obtain ⟨hc, fs, hs, rfl⟩ := h
            refine ⟨hc.imp hp.spent.readStops fun h => ⟨h.1, fun n hn => ?_⟩, fs,
              hp.spent.trans hs, rfl⟩
            cases n with
            | zero =>
              obtain ⟨bs, c, post, hi, _, hc, _, _, hz⟩ := hn
              rw [List.length_eq_zero_iff.mp hz.symm] at hi
              obtain ⟨rfl, _⟩ := List.cons.inj hi
              rw [hd] at hc; cases hc
            | succ n => exact h.2 n ((Closes.cons_data hd).mp hn)
        | «end» s c =>
          dsimp only
          have hfin : crc.finalize E.crc = E.crc (keyVals bs0) := congrArg E.crc hcrc
          by_cases hok : s = rpt.seq ∧ crc.finalize E.crc = rpt.crc ∧ c = rpt.crc ∧
              bs0.length = rpt.ct
          · rw [if_pos hok]
            obtain ⟨h1, h2, h3, h4⟩ := hok
            refine .pure ⟨⟨0, (Closes.cons_other (by simp [hd])).mpr ⟨rfl, ?_, ?_, h4⟩, rfl⟩, _,
              hp.spent, rfl⟩
            · rw [hd, h1, h3]
            · rw [← hfin, h2]
          · rw [if_neg hok]
            refine .throw ⟨Or.inr ⟨Or.inl rfl, hbad (by simp [hd]) fun hd' h => hok ?_⟩, _,
              hp.spent, rfl⟩
            rw [hd] at hd'
            injection hd' with hd'
            injection hd' with h1 h2
            exact ⟨h1, by rw [hfin, h.1], h2, h.2⟩
    · intro e w1 h
      obtain ⟨r, hs, rfl⟩ := h
      exact ⟨Or.inl hs.readStops, _, hs.spent, rfl⟩

theorem verifySkip_spec (seq : NonZeroU32) : ∀ (items : List Item) (seen total : Nat) (w : World E),
    Ends (verifySkip seq seen total items) w
      (fun a w' => (∃ pre o, items = pre ++ o :: a.1 ∧ (∀ x ∈ pre, x.data ≠ some (.start seq)) ∧
        o.data = some (.start seq) ∧ a.2.1 = seen + pre.length + 1) ∧
        ∃ fs, Spent w.faults fs ∧ w' = w.withFaults fs)
      (fun e w' => (w.faults.ReadStops e ∨
        (VerifyError e ∧ ∀ x ∈ items, x.data ≠ some (.start seq))) ∧
        ∃ fs, Spent w.faults fs ∧ w' = w.withFaults fs)
  | [], seen, total, w => by
    simp only [verifySkip]
    refine ((nextOr_spec _ w).mono ?_ ?_).bind
    · intro _ w1 h
      obtain ⟨r, hp, rfl⟩ := h
      exact .throw ⟨Or.inr ⟨Or.inr rfl, by simp⟩, _, hp.spent, rfl⟩
    · intro e w1 h
      obtain ⟨r, hs, rfl⟩ := h
      exact ⟨Or.inl hs.readStops, _, hs.spent, rfl⟩
  | it :: items, seen, total, w => by
    simp only [verifySkip]
    refine ((nextOr_spec _ w).mono ?_ ?_).bind
    · intro _ w1 h
      obtain ⟨r1, hp, rfl⟩ := h
      by_cases hd : it.data = some (.start seq)
      · rw [if_pos hd]
        exact .pure ⟨⟨[], it, rfl, by simp, hd, rfl⟩, _, hp.spent, rfl⟩
      · rw [if_neg hd]
        refine (verifySkip_spec seq items _ _ _).mono ?_ ?_
        · intro a w2 h
          obtain ⟨⟨pre, o, hi, hpre, ho, hn⟩, fs, hs, rfl⟩ := h
          refine ⟨⟨it :: pre, o, by rw [hi]; rfl, ?_, ho, ?_⟩, fs, hp.spent.trans hs, rfl⟩
          · intro x hx
            rcases List.mem_cons.mp hx with rfl | hx
            · exact hd
            · exact hpre x hx
          · rw [hn, List.length_cons]; omega
        · intro e w2 h
          obtain ⟨hc, fs, hs, rfl⟩ := h
          refine ⟨hc.imp hp.spent.readStops fun h => ⟨h.1, fun x hx => ?_⟩, fs, hp.spent.trans hs, rfl⟩
          rcases List.mem_cons.mp hx with rfl | hx
          · exact hd
          · exact h.2 x hx
    · intro e w1 h
      obtain ⟨r, hs, rfl⟩ := h
      exact ⟨Or.inl hs.readStops, _, hs.spent, rfl⟩

/-- Two ways to cut a storage at its first `Start` with the number are one. -/
theorem first_start_unique {seq : NonZeroU32} : ∀ {pre pre' rest rest' : List Item} {o o' : Item},
    pre ++ o :: rest = pre' ++ o' :: rest' → (∀ x ∈ pre, x.data ≠ some (.start seq)) →
    (∀ x ∈ pre', x.data ≠ some (.start seq)) → o.data = some (.start seq) →
    o'.data = some (.start seq) → pre = pre' ∧ rest = rest'
  | [], [], _, _, _, _, h, _, _, _, _ => ⟨rfl, (List.cons.inj h).2⟩
  | [], y :: pre', _, _, _, _, h, _, hp', ho, _ =>
    absurd ((List.cons.inj h).1 ▸ ho) (hp' y (by simp))
  | x :: pre, [], _, _, _, _, h, hp, _, _, ho' =>
    absurd ((List.cons.inj h).1 ▸ ho') (hp x (by simp))
  | x :: pre, y :: pre', _, _, _, _, h, hp, hp', ho, ho' => by
    obtain ⟨rfl, htail⟩ := List.cons.inj h
    obtain ⟨rfl, hr⟩ := first_start_unique htail (fun z hz => hp z (by simp [hz]))
      (fun z hz => hp' z (by simp [hz])) ho ho'
    exact ⟨rfl, hr⟩

/-- The verification accepts exactly what `Verifies` says. -/
theorem verifyListInFlash_spec (rpt : WriteReport) (w : World E) :
    Ends (verifyListInFlash rpt 0) w
      (fun a w' => Verifies E rpt w.items a.1 ∧ ∃ fs, Spent w.faults fs ∧ w' = w.withFaults fs)
      (fun e w' => (w.faults.ReadStops e ∨ (VerifyError e ∧ ∀ range, ¬ Verifies E rpt w.items range)) ∧
        ∃ fs, Spent w.faults fs ∧ w' = w.withFaults fs) := by
  simp only [verifyListInFlash]
  refine ((iterElems_spec w).mono ?_ ?_).bind
  · intro items w1 h
    obtain ⟨rfl, r1, hp1, rfl⟩ := h
    refine ((verifySkip_spec rpt.seq w.items 0 0 _).mono ?_ ?_).bind
    · intro a w2 h
      obtain ⟨rest, seen, total⟩ := a
      obtain ⟨⟨pre, o, hi, hpre, ho, hn⟩, f2, hs2, rfl⟩ := h
      dsimp only at hi hn ⊢
      refine (verifyLoop_spec rpt (seen - 1) rest [] seen .new total _ rfl).mono ?_ ?_
      · intro a w3 h
        obtain ⟨⟨n, hc, ha⟩, fs, hs, rfl⟩ := h
        refine ⟨⟨pre, o, rest, n, hi, hpre, ho, hc, ?_⟩, fs, (hp1.spent.trans hs2).trans hs, rfl⟩
        rw [ha]; congr 1 <;> omega
      · intro e w3 h
        obtain ⟨hc, fs, hs, rfl⟩ := h
        refine ⟨hc.imp (hp1.spent.trans hs2).readStops fun h => ⟨h.1, fun range hv => ?_⟩, fs,
          (hp1.spent.trans hs2).trans hs, rfl⟩
        obtain ⟨pre', o', rest', n, hi', hpre', ho', hcl, _⟩ := hv
        obtain ⟨_, rfl⟩ := first_start_unique (hi.symm.trans hi') hpre hpre' ho ho'
        exact h.2 n hcl
    · intro e w2 h
      obtain ⟨hc, fs, hs, rfl⟩ := h
      refine ⟨hc.imp hp1.spent.readStops fun h => ⟨h.1, fun range hv => ?_⟩, fs,
        hp1.spent.trans hs, rfl⟩
      obtain ⟨pre, o, rest, n, hi, _, ho, _⟩ := hv
      exact h.2 o (by rw [hi]; simp) ho
  · intro e w1 h
    obtain ⟨r, hs, rfl⟩ := h
    exact ⟨Or.inl hs.readStops, _, hs.spent, rfl⟩

/-- Serializing does not stop a call for good. -/
theorem writeDatas_ne_cut (bufLen : Nat) (cells : Cells E) (list : List E.Id) :
    (writeDatas bufLen cells list).2 ≠ some .cut := by
  induction list with
  | nil => exact fun h => by cases h
  | cons i list ih =>
    rw [writeDatas]
    by_cases hv : (cells i).state.hasValue = true
    · rw [if_pos hv]
      cases (cells i).t with
      | none => exact fun h => by cases h
      | some t =>
        dsimp only
        cases nodeElem E bufLen i t with
        | none => exact fun h => by cases h
        | some d => exact ih
    · rw [if_neg hv]
      exact ih

/-! ## `process_writes` -/

/-- The checks before the first push: the number to use, where a push is due. -/
def writeDue (w : World E) : Except Error (Option NonZeroU32) :=
  match w.seqState.nextSeq with
  | none => .error .needsFirstRead
  | some s =>
    if w.seqState.needsGc then .error .needsGarbageCollect
    else (needsWriting w).map fun due => if due then some s else none

/-- All that `process_writes` can do. -/
theorem processWrites_spec (bufLen : Nat) (w : World E) :
    Ends (processWrites bufLen) w
      (fun _ w' => (writeDue w = .ok none ∧ w' = w) ∨ ∃ s range fs, writeDue w = .ok (some s) ∧
        Spent w.faults fs ∧ (writeDatas bufLen w.cells w.list).2 = none ∧
        Verifies E ⟨s, E.crc (crcBytes (w.toWrite bufLen)), (w.toWrite bufLen).length, 0⟩
          (w.items ++ recordItems E s (w.toWrite bufLen) w.call) range ∧
        w' = (((w.withItems (w.items ++ recordItems E s (w.toWrite bufLen) w.call)).withSeq
          (w.seqState.insertGood E.sorter ⟨s, range⟩)).withCells
            (markWritten w.list w.cells)).withFaults fs)
      (fun e w' => (∃ err, writeDue w = .error err ∧ e = .error (.appError err) ∧ w' = w) ∨
        ∃ s fs, writeDue w = .ok (some s) ∧ Spent w.faults fs ∧
          (((w.faults.CanStop e ∨ (writeDatas bufLen w.cells w.list).2 = some e) ∧
            ∃ items, Partly w.faults w.call (recordElems E s (w.toWrite bufLen)) items ∧
              (items = recordItems E s (w.toWrite bufLen) w.call →
                (writeDatas bufLen w.cells w.list).2 = none) ∧
              w' = (w.withItems (w.items ++ items)).withFaults fs) ∨
          ((writeDatas bufLen w.cells w.list).2 = none ∧
            (w.faults.ReadStops e ∨ (VerifyError e ∧ ∀ range, ¬ Verifies E
              ⟨s, E.crc (crcBytes (w.toWrite bufLen)), (w.toWrite bufLen).length, 0⟩
              (w.items ++ recordItems E s (w.toWrite bufLen) w.call) range)) ∧
            w' = (w.withItems (w.items ++ recordItems E s (w.toWrite bufLen) w.call)).withFaults
              fs))) := by
  simp only [processWrites, writeDue]
  refine .bind (.get ?_)
  cases hn : w.seqState.nextSeq with
  | none => exact .throw (Or.inl ⟨_, rfl, rfl, rfl⟩)
  | some s =>
    dsimp only
    by_cases hg : w.seqState.needsGc = true
    · simp only [hg, if_true]
      exact .throw (Or.inl ⟨_, rfl, rfl, rfl⟩)
    · simp only [hg]
      cases hw : needsWriting w with
      | error err => exact .throw (Or.inl ⟨err, rfl, rfl, rfl⟩)
      | ok due =>
        cases due with
        | false => exact .pure (Or.inl ⟨rfl, rfl⟩)
        | true =>
          dsimp only
          refine Ends.bind ((writeToFlash_spec bufLen s w).mono ?_ ?_)
          · intro rpt w1 h
            obtain ⟨hnone, hseq, hcrc, hct, f1, hs1, rfl⟩ := h
            have hver : ∀ range, Verifies E rpt (w.items ++ recordItems E s (w.toWrite bufLen)
                w.call) range ↔ Verifies E ⟨s, E.crc (crcBytes (w.toWrite bufLen)),
                (w.toWrite bufLen).length, 0⟩ (w.items ++ recordItems E s (w.toWrite bufLen)
                w.call) range := by
              intro range
              simp only [Verifies, Closes]
              rw [hseq, hcrc, hct]
            refine Ends.bind ((verifyListInFlash_spec rpt _).mono ?_ ?_)
            · intro a w2 h
              obtain ⟨range, total⟩ := a
              obtain ⟨hv, fs, hs2, rfl⟩ := h
              refine .bind (.modify (.bind (.modify (.pure (Or.inr ?_)))))
              exact ⟨s, range, fs, rfl, hs1.trans hs2, hnone, (hver range).mp hv, rfl⟩
            · intro e w2 h
              obtain ⟨hc, fs, hs2, rfl⟩ := h
              refine Or.inr ⟨s, fs, rfl, hs1.trans hs2, Or.inr ⟨hnone, ?_, rfl⟩⟩
              exact hc.imp hs1.readStops fun h => ⟨h.1, fun range hv => h.2 range ((hver range).mpr hv)⟩
          · intro e w1 h
            obtain ⟨hc, items, fs, hs, hp, hall, rfl⟩ := h
            exact Or.inr ⟨s, fs, rfl, hs, Or.inl ⟨hc, items, hp, hall, rfl⟩⟩

end CfgNoodle

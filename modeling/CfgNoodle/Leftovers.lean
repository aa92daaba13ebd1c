import CfgNoodle.Locations

/-! # What failed writes leave behind

A collection is due only when a record was found or verified. What writes push
that fail stays in the storage for as long as none succeeds and the cache is not
emptied, and where no record is valid not even a reboot gets rid of it. -/
namespace CfgNoodle
open Framing Outcome Runs
variable {E : Env}

/-! ## Nothing to collect -/

/-- No collection is due, and the scan has been completed or there is nothing to find. -/
structure Quiet (items : List Item) (s : SeqState E.kept) : Prop where
  clean : s.needsGc = false
  scanned : s.nextSeq = none → validRecords E items = [] ∧ s.records = []

theorem quiet_new {items : List Item} (hv : validRecords E items = []) : Quiet (E := E) items .new :=
  ⟨rfl, fun _ => ⟨hv, SeqState.records_new⟩⟩

/-- A scan that finds nothing changes nothing but the next number. -/
theorem populate_of_no_record {items : List Item} {s : SeqState E.kept} (hn : s.nextSeq = none)
    (hv : validRecords E items = []) : populate E items s = s.finishScan := by
  rw [populate_of_unset hn, goodRecords_eq_nil.mpr hv, SeqState.insertAll_nil]

theorem Quiet.populate {items : List Item} {s : SeqState E.kept} (h : Quiet items s) :
    Quiet items (populate E items s) := by
  cases hn : s.nextSeq with
  | some n =>
    rw [populate_of_nextSeq hn]
    exact h
  | none =>
    obtain ⟨hv, hrec⟩ := h.scanned hn
    rw [populate_of_no_record hn hv]
    refine ⟨?_, fun _ => ⟨hv, ?_⟩⟩
    · rw [finishScan_needsGc]
      exact h.clean
    · rw [finishScan_records]
      exact hrec

/-- A scan that was stopped has found nothing either. -/
theorem Quiet.stopped {items : List Item} {s : SeqState E.kept} (h : Quiet items s)
    (hn : s.nextSeq = none) (q : Nat) :
    s.insertAll E.sorter (goodRecords E (items.take (q - 1))) = s := by
  have hsplit := (goodRecords_split (E := E) items q).1
  rw [goodRecords_eq_nil.mpr (h.scanned hn).1] at hsplit
  have hnil : goodRecords E (items.take (q - 1)) = [] := (List.append_eq_nil_iff.mp hsplit.symm).1
  rw [hnil, SeqState.insertAll_nil]

theorem gcTake_of_clean {w : World E} (h : w.seqState.needsGc = false) : gcTake w = .ok none w := by
  rcases (gcTake_spec w).cases with ⟨a, w', hrun, ⟨rfl, rfl⟩ | ⟨_, hgc, _⟩⟩ | ⟨_, _, _, hno⟩
  · exact hrun
  · rw [h] at hgc
    cases hgc
  · exact hno.elim

theorem processGarbage_of_clean {w : World E} (h : w.seqState.needsGc = false) :
    processGarbage w = .ok ⟨0, 0, 0⟩ w := by
  have hends : Ends processGarbage w (fun c w' => c = ⟨0, 0, 0⟩ ∧ w' = w) fun _ _ => False := by
    simp only [processGarbage]
    refine .bind ?_
    unfold Ends
    rw [gcTake_of_clean h]
    exact ⟨rfl, rfl⟩
  rcases hends.cases with ⟨c, w', hrun, rfl, rfl⟩ | ⟨_, _, _, hno⟩
  · exact hrun
  · exact hno.elim

/-! ## Runs -/

/-- The visit gives a collection nothing to do: no write verifies its record, and the
cache is emptied only where no record is valid. -/
def Fruitless (s : Service E) : Visit E → Prop
  | .processWrites bufLen fs => ∀ c w',
    CfgNoodle.processWrites bufLen (s.world.withFaults fs) = .ok c w' → w'.items = s.world.items
  | .resetCache | .powerLoss => validRecords E s.world.items = []
  | _ => True

structure Uncollected (s : Service E) : Prop where
  idle : s.gc = .idle
  quiet : Quiet s.world.items s.world.seqState

/-- What is stored stays stored. -/
def Accretes (s s' : Service E) : Prop := Uncollected s' ∧ s.world.items <+: s'.world.items

theorem Uncollected.reads {w : World E} (h : Quiet w.items w.seqState)
    (hl : Located w.items w.seqState) (fs : Faults E.Err) :
    Accretes (⟨w, .idle⟩ : Service E) ⟨endState (processReads (w.withFaults fs)), .idle⟩ := by
  rcases (processReads_spec (w := w.withFaults fs) hl).cases with
    ⟨_, w', hrun, _, _, rfl⟩ | ⟨e, w', hrun, _, r, ⟨hc, q, _, _, rfl⟩ | ⟨_, _, _, rfl⟩⟩
  · rw [hrun]
    exact ⟨⟨rfl, h.populate⟩, List.prefix_rfl⟩
  · rw [hrun]
    refine ⟨⟨rfl, ?_⟩, List.prefix_rfl⟩
    show Quiet w.items (w.seqState.insertAll E.sorter (goodRecords E (w.items.take (q - 1))))
    rw [h.stopped (nextSeq_eq_none hc) q]
    exact h
  · rw [hrun]
    exact ⟨⟨rfl, h.populate⟩, List.prefix_rfl⟩

theorem Uncollected.writes {w : World E} (h : Quiet w.items w.seqState) (bufLen : Nat)
    (fs : Faults E.Err) (hv : Fruitless (⟨w, .idle⟩ : Service E) (.processWrites bufLen fs)) :
    Accretes (⟨w, .idle⟩ : Service E) ⟨endState (processWrites bufLen (w.withFaults fs)), .idle⟩ := by
  have hpushed : ∀ (part : List Item) (f : Faults E.Err) (n : NonZeroU32),
      writeDue (w.withFaults fs) = .ok (some n) → Accretes (⟨w, .idle⟩ : Service E)
        ⟨((w.withFaults fs).withItems (w.items ++ part)).withFaults f, .idle⟩ := by
    intro part f n hdue
    have hn : w.seqState.nextSeq = some n := writeDue_nextSeq hdue
    refine ⟨⟨rfl, h.clean, fun hnone => ?_⟩, List.prefix_append _ _⟩
    rw [show w.seqState.nextSeq = none from hnone] at hn
    cases hn
  rcases (processWrites_spec bufLen (w.withFaults fs)).cases with
    ⟨c, w', hrun, ⟨_, rfl⟩ | ⟨n, range, f, _, _, _, _, rfl⟩⟩ |
    ⟨e, w', hrun, ⟨_, _, _, rfl⟩ | ⟨n, f, hdue, _, ⟨_, part, _, _, rfl⟩ | ⟨_, _, rfl⟩⟩⟩
  · rw [hrun]
    exact ⟨⟨rfl, h⟩, List.prefix_rfl⟩
  · -- a write that returns `Ok` has pushed its record
    have hitems : w.items ++ recordItems E n _ _ = w.items := hv c _ hrun
    exact absurd (List.append_right_eq_self.mp hitems) (List.cons_ne_nil _ _)
  · rw [hrun]
    exact ⟨⟨rfl, h⟩, List.prefix_rfl⟩
  · rw [hrun]
    exact hpushed part f n hdue
  · rw [hrun]
    exact hpushed _ f n hdue

theorem Uncollected.next {s : Service E} (h : Uncollected s) (hs : s.Sound) {v : Visit E}
    (hv : Fruitless s v) : Accretes s (s.next v) := by
  obtain ⟨w, gc⟩ := s
  obtain ⟨hidle, hq⟩ := h
  obtain rfl : gc = .idle := hidle
  have hsame : Accretes (⟨w, .idle⟩ : Service E) ⟨w, .idle⟩ := ⟨⟨rfl, hq⟩, List.prefix_rfl⟩
  cases v with
  | nodes list cells => exact ⟨⟨rfl, hq⟩, List.prefix_rfl⟩
  | processReads fs => exact Uncollected.reads hq hs.cache.located fs
  | processWrites bufLen fs => exact Uncollected.writes hq bufLen fs hv
  | gcTake =>
    show Accretes _ (Service.ended _ (gcTake w))
    rw [gcTake_of_clean hq.clean]
    exact hsame
  | gcCollect | gcFinish | abandon => exact hsame
  | resetCache | powerLoss => exact ⟨⟨rfl, quiet_new hv⟩, List.prefix_rfl⟩

/-- **Leftovers stay**: from any reachable state in which no collection is due, and
the scan has been completed or no record is valid, nothing is deleted for as long as
no write verifies its record and the cache is not emptied while a record is valid.
Whatever failed writes push piles up, and `process_garbage` returns `Ok` at once. -/
theorem leftovers_stay {s₀ s : Service E} (hr : (service E).Reachable s₀) (h₀ : Uncollected s₀)
    (hpath : Relation.ReflTransGen (fun s s' => ∃ v, Fruitless s v ∧ s' = s.next v) s₀ s) :
    s₀.world.items <+: s.world.items ∧
      ∀ fs, processGarbage (s.world.withFaults fs) = .ok ⟨0, 0, 0⟩ (s.world.withFaults fs) := by
  have hinv : (service E).Reachable s ∧ Accretes s₀ s := by
    induction hpath with
    | refl => exact ⟨hr, h₀, List.prefix_rfl⟩
    | tail _ hstep ih =>
      obtain ⟨v, hv, rfl⟩ := hstep
      obtain ⟨hreach, hunc, hprefix⟩ := ih
      have hnext := hunc.next (sound_service hreach) hv
      exact ⟨hreach.step rfl, hnext.1, hprefix.trans hnext.2⟩
  exact ⟨hinv.2.2, fun fs => processGarbage_of_clean (w := s.world.withFaults fs) hinv.2.1.quiet.clean⟩

/-- The second push fails and leaves a part of its element. -/
def tornWrite : Faults Unit := { pushes := [.ok, .err () (.torn 3)] }

/-- On an empty storage, a node waits for the first write. -/
def beforeTornWrite : Service twoSettings :=
  ((⟨World.boot [], .idle⟩ : Service twoSettings).next
    (.nodes [settingA] fun _ => ⟨.needsWrite, some (7 : UInt8)⟩)).next (.processReads .none)

def afterTornWrite : Service twoSettings := beforeTornWrite.next (.processWrites 64 tornWrite)

/-- What it has pushed is still there after a reboot and a collection. -/
theorem torn_write_stays : (afterTornWrite.next .powerLoss).world.items.length = 2 ∧
    ∀ fs, processGarbage ((afterTornWrite.next .powerLoss).world.withFaults fs) =
      .ok ⟨0, 0, 0⟩ ((afterTornWrite.next .powerLoss).world.withFaults fs) := by
  have hempty : validRecords twoSettings [] = [] := rfl
  have hreach : (service twoSettings).Reachable ⟨World.boot [], .idle⟩ := .init ⟨[], rfl⟩
  have hwrite : Fruitless beforeTornWrite (.processWrites 64 tornWrite) := by
    intro c w' hx
    have hfails : returnedOk
        (processWrites 64 (beforeTornWrite.world.withFaults tornWrite)) = false := by decide +kernel
    rw [hx] at hfails
    cases hfails
  have hnone : validRecords twoSettings afterTornWrite.world.items = [] :=
    List.isEmpty_iff.mp (by decide +kernel)
  refine ⟨by decide +kernel, (leftovers_stay hreach ⟨rfl, quiet_new hempty⟩ ?_).2⟩
  refine .tail (.tail (.tail (.single ⟨_, ?_, rfl⟩) ⟨_, ?_, rfl⟩) ⟨_, hwrite, rfl⟩) ⟨.powerLoss, hnone, rfl⟩
  · trivial
  · trivial

end CfgNoodle

import CfgNoodle.Counters
import CfgNoodle.LiveData

/-! # How much is stored

Runs in which every write that pushes anything returns `Ok`, with reboots between
the calls. The storage never holds more than `KEPT_RECORDS` records and one, and
nothing else, and what it holds is what was reported as written less what was
reported as deleted. -/
namespace CfgNoodle
open Framing Outcome Runs
open scoped List
variable {E : Env}

/-! ## The storage -/

/-- A few records of a limited size, one after the other, and nothing else. -/
structure Stored (E : Env) (limit : Nat) (items : List Item) : Prop where
  whole : items = segments (validRecords E items)
  few : (validRecords E items).length ≤ E.kept + 1
  small : ∀ p ∈ contents (recordGrammar E.crc) items, bytesOf p.2 ≤ limit
  below : ∀ p ∈ contents (recordGrammar E.crc) items, p.1.get < NonZeroU32.MAX

theorem stored_nil (limit : Nat) : Stored E limit [] where
  whole := rfl
  few := Nat.zero_le _
  small _ hp := absurd hp List.not_mem_nil
  below _ hp := absurd hp List.not_mem_nil

theorem bytesOf_segments {limit : Nat} : ∀ (fs : List Record), (∀ f ∈ fs, bytesOf f.seg ≤ limit) →
    bytesOf (segments fs) ≤ fs.length * limit
  | [], _ => Nat.zero_le _
  | f :: fs, h => by
    have hf := h f List.mem_cons_self
    have ih := bytesOf_segments fs fun g hg => h g (List.mem_cons_of_mem _ hg)
    have hsplit : bytesOf (segments (f :: fs)) = bytesOf f.seg + bytesOf (segments fs) :=
      bytesOf_append f.seg (segments fs)
    rw [hsplit, List.length_cons, Nat.succ_mul]
    omega

namespace Stored
variable {limit : Nat} {items : List Item} (h : Stored E limit items)
include h

theorem bytes_le : bytesOf items ≤ (validRecords E items).length * limit := by
  have hle := bytesOf_segments (validRecords E items) fun f hf =>
    h.small _ (mem_contents.mpr ⟨f, hf, rfl⟩)
  rwa [← h.whole] at hle

theorem key_lt {f : Record} (hf : f ∈ validRecords E items) : f.key.get < NonZeroU32.MAX :=
  h.below _ (mem_contents.mpr ⟨f, hf, rfl⟩)

theorem nextSeq_scan : (SeqState.scan E items).nextSeq ≠ none :=
  scan_nextSeq_ne_none fun _ hf => h.key_lt hf

theorem tidy_scan : Tidy items (SeqState.scan E items) := by
  refine ⟨current_scan items, fun hgc => ⟨(current_scan items).counted hgc, h.whole, ?_⟩⟩
  rw [validRecords_of_scan_clean hgc]
  exact Nat.zero_le _

/-- A record is added. -/
theorem record {n : NonZeroU32} {ds : List SerData} {call : Nat}
    (hfew : (validRecords E items).length ≤ E.kept)
    (hsmall : bytesOf (recordItems E n ds call) ≤ limit) (hn : n.get < NonZeroU32.MAX) :
    Stored E limit (items ++ recordItems E n ds call) := by
  have hmem : ∀ p ∈ contents (recordGrammar E.crc) (items ++ recordItems E n ds call),
      p ∈ contents (recordGrammar E.crc) items ∨ p = (n, recordItems E n ds call) := by
    intro p hp
    obtain ⟨f, hf, rfl⟩ := mem_contents.mp hp
    rw [validRecords_append_record, List.mem_append, List.mem_singleton] at hf
    rcases hf with hf | rfl
    · exact Or.inl (mem_contents.mpr ⟨f, hf, rfl⟩)
    · exact Or.inr rfl
  refine ⟨?_, ?_, fun p hp => ?_, fun p hp => ?_⟩
  · rw [validRecords_append_record, segments, List.map_append, List.flatten_append]
    have hwhole := h.whole
    unfold segments at hwhole
    rw [← hwhole]
    simp
  · rw [validRecords_append_record, List.length_append]
    exact Nat.succ_le_succ hfew
  · rcases hmem p hp with hp | rfl
    · exact h.small p hp
    · exact hsmall
  · rcases hmem p hp with hp | rfl
    · exact h.below p hp
    · exact hn

end Stored

/-- What a collection leaves. -/
theorem Tidy.stored {limit : Nat} {items : List Item} {s : SeqState E.kept} (h : Tidy items s)
    (hs : Stored E limit items) : Stored E limit (CfgNoodle.survivors s items) ∧
      (validRecords E (CfgNoodle.survivors s items)).length ≤ E.kept := by
  have hcompact := h.survivors
  have hcont := contents_survivors fun r hr => (h.spanned r hr).imp fun _ => Spans.snug
  have hmem : ∀ p ∈ contents (recordGrammar E.crc) (CfgNoodle.survivors s items),
      p ∈ contents (recordGrammar E.crc) items := by
    intro p hp
    rw [hcont] at hp
    obtain ⟨f, hf, rfl⟩ := List.mem_map.mp hp
    exact mem_contents.mpr ⟨f, (keptRecords_sublist s items).subset hf, rfl⟩
  exact ⟨⟨hcompact.stored, Nat.le_succ_of_le hcompact.few, fun p hp => hs.small p (hmem p hp),
    fun p hp => hs.below p (hmem p hp)⟩, hcompact.few⟩

/-! ## Runs -/

/-- The bytes that a call reports as written. -/
def Device.written (d : Device E) : Call E → Nat
  | .processWrites bufLen fs =>
    match CfgNoodle.processWrites bufLen (d.writing fs) with
    | .ok c _ => c.currentBytesWritten
    | .error _ _ => 0
  | _ => 0

/-- The bytes that a call reports as deleted. -/
def Device.popped (d : Device E) : Call E → Nat
  | .processGarbage fs =>
    match CfgNoodle.processGarbage (d.world.withFaults fs) with
    | .ok c _ => c.totalBytesPopped
    | .error _ _ => 0
  | _ => 0

/-- A device and the sums of what its calls have reported. -/
structure Ledger (E : Env) where
  device : Device E
  written : Nat
  popped : Nat

def Ledger.call (s : Ledger E) (c : Call E) : Ledger E :=
  ⟨s.device.call c, s.written + s.device.written c, s.popped + s.device.popped c⟩

/-- The runs that start with a reboot on some storage. -/
def ledgers (E : Env) (items : List Item) : System (Ledger E) (Call E) where
  init s := s = ⟨⟨World.boot items, []⟩, 0, 0⟩
  step s c s' := s' = s.call c

/-- The call returns `Ok`, or an error and has pushed nothing. -/
def PushesAll (d : Device E) (bufLen : Nat) (fs : Faults E.Err) : Prop :=
  (∃ c w', processWrites bufLen (d.writing fs) = .ok c w') ∨
    ∃ err w', processWrites bufLen (d.writing fs) = .error (.error err) w' ∧
      w'.items = d.world.items

/-- Reads and collections do not fail. A write does not fail after it has pushed
something, it pushes a limited number of bytes and does not use the last number. -/
def Orderly (limit : Nat) (d : Device E) : Call E → Prop
  | .processReads fs => ∀ e, ¬ fs.CanStop e
  | .processWrites bufLen fs => PushesAll d bufLen fs ∧ d.written (.processWrites bufLen fs) ≤ limit ∧
    ∀ n, d.world.seqState.nextSeq = some n → n.get < NonZeroU32.MAX
  | .processGarbage fs => ∀ e, ¬ fs.CanStop e
  | _ => True

/-- The runs in which every call is orderly. -/
def orderlyLedgers (E : Env) (limit : Nat) (items : List Item) : System (Ledger E) (Call E) :=
  (ledgers E items).restrict fun s c _ => Orderly limit s.device c

/-- The cache is empty or tidy, and the storage is limited. -/
structure Housed (limit : Nat) (d : Device E) : Prop where
  cache : d.world.seqState = .new ∨
    Tidy d.world.items d.world.seqState ∧ d.world.seqState.nextSeq ≠ none
  stored : Stored E limit d.world.items

theorem nextSeq_of_inserted {items : List Item} {s : SeqState E.kept} (hi : s.Inserted)
    (hl : Located items s) (hb : ∀ f ∈ validRecords E items, f.key.get < NonZeroU32.MAX) :
    s.nextSeq ≠ none := by
  intro hnone
  rw [hi.nextSeq, NonZeroU32.checkedAdd_one_eq_none] at hnone
  cases hs : s.highestSeen with
  | none =>
    rw [hs] at hnone
    cases hnone
  | some r =>
    obtain ⟨f, hf⟩ := hl r (SeqState.mem_records_of_highestSeen hs)
    rw [hs] at hnone
    have hlast : r.seq.get = NonZeroU32.MAX := hnone
    rw [hf.seq] at hlast
    exact (hb f hf.mem).ne hlast

variable {limit : Nat} {d : Device E}

/-- A write that returns `Ok`. -/
theorem Housed.written (h : Housed limit d) {bufLen : Nat} {fs : Faults E.Err}
    {c : ProcessWriteCounters} {w' : World E} (hx : processWrites bufLen (d.writing fs) = .ok c w')
    (hsmall : c.currentBytesWritten ≤ limit)
    (hn : ∀ n, d.world.seqState.nextSeq = some n → n.get < NonZeroU32.MAX) (log : List WriteCall) :
    Housed limit ⟨w', log⟩ ∧ bytesOf w'.items = bytesOf d.world.items + c.currentBytesWritten := by
  have hbytes := ((processWrites_counts bufLen (d.writing fs)).ok hx).1
  refine ⟨?_, hbytes⟩
  rcases (processWrites_spec bufLen (d.writing fs)).ok hx with
    ⟨_, rfl⟩ | ⟨n, range, f, hdue, _, _, hv, rfl⟩
  · exact ⟨h.cache, h.stored⟩
  · have hnext : d.world.seqState.nextSeq = some n := writeDue_nextSeq hdue
    have htidy : Tidy d.world.items d.world.seqState := by
      rcases h.cache with hnew | ⟨htidy, _⟩
      · rw [hnew] at hnext
        cases hnext
      · exact htidy
    have hcompact := htidy.compact (writeDue_clean hdue)
    have hrecord : bytesOf (recordItems E n ((d.writing fs).toWrite bufLen) d.log.length) ≤ limit := by
      have hsum : bytesOf (d.world.items ++ recordItems E n ((d.writing fs).toWrite bufLen)
        d.log.length) = bytesOf d.world.items + c.currentBytesWritten := hbytes
      rw [bytesOf_append] at hsum
      omega
    have hstored := h.stored.record hcompact.few hrecord (hn n hnext)
    obtain ⟨hcurrent, hgc⟩ := hcompact.written hnext hv
    have hwritten := hcurrent.tidy hgc
    have hsub := hcompact.top.subset
    have hbelow : ∀ x ∈ d.world.seqState.records, x.seqKey < n.get := by
      intro x hmem
      obtain ⟨g, hg, rfl⟩ := List.mem_map.mp (hsub x hmem)
      exact hcompact.next n hnext g hg
    exact ⟨Or.inr ⟨hwritten, nextSeq_of_inserted (inserted_of_above hbelow) hwritten.spanned.located
      fun g hg => hstored.key_lt hg⟩, hstored⟩

/-- A read that does not fail. -/
theorem Housed.read (h : Housed limit d) {fs : Faults E.Err} (hf : ∀ e, ¬ fs.CanStop e) :
    Housed limit (d.call (.processReads fs)) ∧
      (d.call (.processReads fs)).world.items = d.world.items := by
  have hl : Located d.world.items d.world.seqState := by
    rcases h.cache with hnew | ⟨htidy, _⟩
    · rw [hnew]
      exact located_new _
    · exact htidy.spanned.located
  rcases (processReads_spec (w := d.world.withFaults fs) hl).cases with
    ⟨c, w', hx, r, _, hw'⟩ | ⟨e, w', _, hb, _⟩
  · rw [Device.call_processReads hx]
    have hitems : w'.items = d.world.items := by
      rw [hw']
      rfl
    have hseq : w'.seqState = populate E d.world.items d.world.seqState := by
      rw [hw']
      rfl
    refine ⟨⟨Or.inr ?_, ?_⟩, hitems⟩
    · rcases h.cache with hnew | ⟨htidy, hnext⟩
      · show Tidy w'.items w'.seqState ∧ w'.seqState.nextSeq ≠ none
        rw [hitems, hseq, hnew]
        exact ⟨h.stored.tidy_scan, h.stored.nextSeq_scan⟩
      · have hsame : populate E d.world.items d.world.seqState = d.world.seqState :=
          populate_of_completed (Option.isSome_iff_ne_none.mpr hnext)
        show Tidy w'.items w'.seqState ∧ w'.seqState.nextSeq ≠ none
        rw [hitems, hseq, hsame]
        exact ⟨htidy, hnext⟩
    · show Stored E limit w'.items
      rw [hitems]
      exact h.stored
  · exact absurd hb (not_broke_of_not_canStop hf)

/-- A collection that does not fail. -/
theorem Housed.collected (h : Housed limit d) {fs : Faults E.Err} {c : ProcessGarbageCounters}
    {w' : World E} (hx : processGarbage (d.world.withFaults fs) = .ok c w') (log : List WriteCall) :
    Housed limit ⟨w', log⟩ ∧ c.totalBytesPopped + bytesOf w'.items = bytesOf d.world.items ∧
      (d.world.seqState.nextSeq ≠ none → (validRecords E w'.items).length ≤ E.kept) := by
  have hbytes := ((processGarbage_counts (d.world.withFaults fs)).ok hx).1
  rcases (processGarbage_spec (d.world.withFaults fs)).ok hx with ⟨hgc, rfl⟩ | ⟨hgc, f, _, rfl⟩
  · refine ⟨⟨h.cache, h.stored⟩, hbytes, fun hnext => ?_⟩
    rcases h.cache with hnew | ⟨htidy, _⟩
    · rw [hnew] at hnext
      exact absurd rfl hnext
    · exact (htidy.compact hgc).few
  · have htidy : Tidy d.world.items d.world.seqState := by
      rcases h.cache with hnew | ⟨htidy, _⟩
      · rw [World.withFaults_seqState, hnew] at hgc
        cases hgc
      · exact htidy
    obtain ⟨hstored, hfew⟩ := htidy.stored h.stored
    exact ⟨⟨Or.inr ⟨htidy.survivors.tidy, hstored.nextSeq_scan⟩, hstored⟩, hbytes, fun _ => hfew⟩

/-- Every call keeps it, and the storage takes what was written less what was deleted. -/
theorem Housed.call (h : Housed limit d) {c : Call E} (hc : Orderly limit d c) :
    Housed limit (d.call c) ∧ bytesOf (d.call c).world.items + d.popped c =
      bytesOf d.world.items + d.written c := by
  cases c with
  | nodes list cells => exact ⟨⟨h.cache, h.stored⟩, rfl⟩
  | resetCache => exact ⟨⟨Or.inl rfl, h.stored⟩, rfl⟩
  | powerLoss => exact ⟨⟨Or.inl rfl, h.stored⟩, rfl⟩
  | processReads fs =>
    obtain ⟨hhoused, hitems⟩ := h.read hc
    rw [hitems]
    exact ⟨hhoused, rfl⟩
  | processWrites bufLen fs =>
    obtain ⟨hpushes, hsmall, hn⟩ := hc
    rcases hpushes with ⟨c, w', hx⟩ | ⟨err, w', hx, hitems⟩
    · have hcount : d.written (.processWrites bufLen fs) = c.currentBytesWritten := by
        unfold Device.written
        dsimp only
        rw [hx]
      rw [hcount] at hsmall ⊢
      rw [Device.call_processWrites hx]
      exact h.written hx hsmall hn _
    · have hcount : d.written (.processWrites bufLen fs) = 0 := by
        unfold Device.written
        dsimp only
        rw [hx]
      have hseq : w'.seqState = d.world.seqState := by
        rcases (processWrites_spec bufLen (d.writing fs)).error hx with
          ⟨_, _, _, rfl⟩ | ⟨n, f, _, _, ⟨_, part, _, _, rfl⟩ | ⟨_, _, rfl⟩⟩
        · rfl
        · rfl
        · rfl
      rw [hcount, Device.call_processWrites hx]
      show Housed limit ⟨w', _⟩ ∧ bytesOf w'.items + 0 = _
      rw [hitems]
      refine ⟨⟨?_, ?_⟩, rfl⟩
      · show w'.seqState = .new ∨ Tidy w'.items w'.seqState ∧ w'.seqState.nextSeq ≠ none
        rw [hitems, hseq]
        exact h.cache
      · show Stored E limit w'.items
        rw [hitems]
        exact h.stored
  | processGarbage fs =>
    rcases (processGarbage_spec (d.world.withFaults fs)).cases with
      ⟨c, w', hx, _⟩ | ⟨e, w', _, _, hstop, _⟩
    · have hcount : d.popped (.processGarbage fs) = c.totalBytesPopped := by
        unfold Device.popped
        dsimp only
        rw [hx]
      rw [hcount, Device.call_processGarbage hx]
      obtain ⟨hhoused, hbytes, _⟩ := h.collected hx d.log
      exact ⟨hhoused, (Nat.add_comm ..).trans hbytes⟩
    · exact absurd hstop (hc e)

/-! ## The storage is limited -/

/-- **The storage is limited and accounted for**: in a run of calls, reboots and resets
of the cache that starts on at most one record more than are kept, none larger than
a limit, in which nothing fails but writes that push nothing, there is never more.
A collection leaves the records that are kept. -/
theorem storage_limited {limit : Nat} {items : List Item} (hi : Stored E limit items) {s : Ledger E}
    (hs : (orderlyLedgers E limit items).Reachable s) :
    Stored E limit s.device.world.items ∧
      bytesOf s.device.world.items ≤ (E.kept + 1) * limit ∧
      bytesOf s.device.world.items + s.popped = bytesOf items + s.written ∧
      ∀ fs c w', s.device.world.seqState.nextSeq ≠ none →
        processGarbage (s.device.world.withFaults fs) = .ok c w' → bytesOf w'.items ≤ E.kept * limit := by
  have hinv : Housed limit s.device ∧
      bytesOf s.device.world.items + s.popped = bytesOf items + s.written := by
    refine hs.invariant (I := fun s => Housed limit s.device ∧
      bytesOf s.device.world.items + s.popped = bytesOf items + s.written) ?_ ?_
    · rintro s rfl
      exact ⟨⟨Or.inl rfl, hi⟩, rfl⟩
    · rintro s c s' ⟨hhoused, hsum⟩ ⟨rfl, hc⟩
      obtain ⟨hnext, hstep⟩ := hhoused.call hc
      refine ⟨hnext, ?_⟩
      show bytesOf (s.device.call c).world.items + (s.popped + s.device.popped c) =
        bytesOf items + (s.written + s.device.written c)
      omega
  obtain ⟨hhoused, hsum⟩ := hinv
  refine ⟨hhoused.stored, ?_, hsum, fun fs c w' hnext hx => ?_⟩
  · exact hhoused.stored.bytes_le.trans (Nat.mul_le_mul_right limit hhoused.stored.few)
  · obtain ⟨hleft, _, hfew⟩ := hhoused.collected hx []
    exact hleft.stored.bytes_le.trans (Nat.mul_le_mul_right limit (hfew hnext))

/-- A first boot on which one node is written. -/
def firstCalls : List (Call twoSettings) :=
  [.processReads .none, .nodes [settingA] (flushing [] .new).cells, .processWrites 64 .none]

def firstLedger : Ledger twoSettings := firstCalls.foldl Ledger.call ⟨⟨World.boot [], []⟩, 0, 0⟩

set_option maxRecDepth 4000 in
theorem reachable_firstLedger : (orderlyLedgers twoSettings 32 []).Reachable firstLedger := by
  let boot : Ledger twoSettings := ⟨⟨World.boot [], []⟩, 0, 0⟩
  have h1 : (orderlyLedgers twoSettings 32 []).Reachable (boot.call (.processReads .none)) :=
    .step (.init rfl) (l := .processReads .none) ⟨rfl, Faults.not_canStop_none⟩
  have h2 : (orderlyLedgers twoSettings 32 []).Reachable
      ((boot.call (.processReads .none)).call (.nodes [settingA] (flushing [] .new).cells)) :=
    .step h1 (l := .nodes [settingA] (flushing [] .new).cells) ⟨rfl, trivial⟩
  refine .step h2 (l := .processWrites 64 .none) ⟨rfl, Or.inl ⟨_, _, rfl⟩, by decide +kernel, ?_⟩
  intro n hn
  have hone : some NonZeroU32.one = some n := hn
  cases hone
  decide

theorem storage_limited_first : firstLedger.written = 19 ∧
    Stored twoSettings 32 firstLedger.device.world.items ∧
      bytesOf firstLedger.device.world.items ≤ (twoSettings.kept + 1) * 32 ∧
      bytesOf firstLedger.device.world.items + firstLedger.popped = bytesOf [] + firstLedger.written ∧
      ∀ fs c w', firstLedger.device.world.seqState.nextSeq ≠ none →
        processGarbage (firstLedger.device.world.withFaults fs) = .ok c w' →
          bytesOf w'.items ≤ twoSettings.kept * 32 :=
  ⟨by decide +kernel, storage_limited (stored_nil 32) reachable_firstLedger⟩

end CfgNoodle

import CfgNoodle.Lib.Collect
import CfgNoodle.StorageList

/-! # Valid write records

A valid write record is a frame of the storage: a `Start`, data elements and an
`End` with the same number and the checksum of what stands between. The scan is
the one-pass automaton for these frames, so that it reports exactly them
(`scanGoods_eq`). -/
namespace CfgNoodle
open Framing
open scoped List

/-- The bytes of an item that go into the checksum. -/
def Item.keyVal (it : Item) : List UInt8 :=
  match it.data with
  | some (.data d) => d.keyVal
  | _ => []

def keyVals (items : List Item) : List UInt8 := (items.map Item.keyVal).flatten

def Item.opens (it : Item) : Option NonZeroU32 :=
  match it.data with
  | some (.start s) => some s
  | _ => none

def Item.isBody (it : Item) : Bool :=
  match it.data with
  | some (.data _) => true
  | _ => false

def Item.closes (crc : List UInt8 → UInt32) (s : NonZeroU32) (bodies : List Item) (it : Item) : Bool :=
  match it.data with
  | some (.end s' c) => s = s' && c = crc (keyVals bodies)
  | _ => false

/-- The grammar of write records. -/
def recordGrammar (crc : List UInt8 → UInt32) : Grammar Item NonZeroU32 where
  opens := Item.opens
  isBody := Item.isBody
  closes := Item.closes crc
  body_not_open it h := by
    unfold Item.isBody at h
    unfold Item.opens
    split at h <;> simp_all
  close_not_open k bs it h := by
    unfold Item.closes at h
    unfold Item.opens
    split at h <;> simp_all
  close_not_body k bs it h := by
    unfold Item.closes at h
    unfold Item.isBody
    split at h <;> simp_all

abbrev Record := Frame Item NonZeroU32

/-- What the scan remembers of a record. -/
def goodOf (f : Record) : GoodWriteRecord := ⟨f.key, ⟨f.start, f.last⟩⟩

variable (E : Env)

/-- The items form one complete write record with this number. -/
abbrev IsRecord (s : NonZeroU32) (seg : List Item) : Prop := IsFrame (recordGrammar E.crc) s seg

/-- The valid write records of a storage. -/
def validRecords (items : List Item) : List Record := frames (recordGrammar E.crc) items

/-- The same as the scan remembers them. -/
def goodRecords (items : List Item) : List GoodWriteRecord := (validRecords E items).map goodOf

/-- The cache after a scan that starts from an empty one and meets no error. -/
def SeqState.scan (items : List Item) : SeqState E.kept :=
  ((SeqState.new.insertAll E.sorter) (goodRecords E items)).finishScan

@[simp] theorem goodOf_seq (f : Record) : (goodOf f).seq = f.key := rfl

@[simp] theorem goodOf_first (f : Record) : (goodOf f).range.first = f.start := rfl

@[simp] theorem goodOf_last (f : Record) : (goodOf f).range.last = f.last := rfl

theorem keyVals_append (a b : List Item) : keyVals (a ++ b) = keyVals a ++ keyVals b := by
  simp [keyVals]

/-! ## The scan -/

/-- The records that a part of the scan hands to `insert_good`. -/
def scanGoods (crc : List UInt8 → UInt32) : ScanLocals → List Item → List GoodWriteRecord
  | _, [] => []
  | l, item :: items =>
    (scanStep crc l item).2.toList ++ scanGoods crc (scanStep crc l item).1 items

/-- The local state in which it ends. -/
def scanLocals (crc : List UInt8 → UInt32) : ScanLocals → List Item → ScanLocals
  | l, [] => l
  | l, item :: items => scanLocals crc (scanStep crc l item).1 items

/-- The scan's local state describes the frame that is open. -/
structure Tracks (l : ScanLocals) (st : Option (Pending Item NonZeroU32)) (n : Nat) : Prop where
  ctr : l.ctr = n
  closed : st = none → l.current = none
  opened : ∀ o, st = some o → l.current = some (o.key, o.start) ∧ l.crc.data = keyVals o.bodies ∧
    o.start + 1 + o.bodies.length = n

theorem tracks_init (b : Nat) : Tracks ⟨none, .new, 0, b⟩ none 0 :=
  ⟨rfl, fun _ => rfl, nofun⟩

variable {E}

/-- One item of the scan is one item of the one-pass automaton. -/
theorem Tracks.step {l : ScanLocals} {st : Option (Pending Item NonZeroU32)} {n : Nat}
    (h : Tracks l st n) (crc : List UInt8 → UInt32) (it : Item) :
    Tracks (scanStep crc l it).1 (scanItem (recordGrammar crc) st n it).1 (n + 1) ∧
      (scanStep crc l it).2 = (scanItem (recordGrammar crc) st n it).2.map goodOf := by
  have hctr := h.ctr
  cases hd : it.data with
  | none =>
    simp only [scanStep, scanItem, recordGrammar, Item.opens, Item.isBody, Item.closes, hd]
    refine ⟨⟨by simp [hctr], fun _ => rfl, fun o ho => by cases ho⟩, ?_⟩
    cases st <;> rfl
  | some e =>
    cases e with
    | start s =>
      simp only [scanStep, scanItem, recordGrammar, Item.opens, hd]
      refine ⟨⟨by simp [hctr], (fun hs => by cases hs), fun o ho => ?_⟩, rfl⟩
      obtain rfl := Option.some.inj ho
      exact ⟨by simp [hctr], rfl, rfl⟩
    | data d =>
      simp only [scanStep, scanItem, recordGrammar, Item.opens, Item.isBody, hd]
      cases st with
      | none =>
        simp only [h.closed rfl, Option.isNone_none, if_true]
        exact ⟨⟨by simp [hctr], fun _ => rfl, fun o ho => by cases ho⟩, rfl⟩
      | some o =>
        obtain ⟨hc, hcrc, hn⟩ := h.opened o rfl
        simp only [hc, Option.isNone_some, if_true]
        refine ⟨⟨by simp [hctr], (fun hs => by cases hs), fun o' ho => ?_⟩, rfl⟩
        obtain rfl := Option.some.inj ho
        refine ⟨rfl, ?_, by simp; omega⟩
        simp [Crc32.update, hcrc, keyVals, Item.keyVal, hd]
    | «end» s c =>
      cases st with
      | none =>
        simp only [scanStep, scanItem, recordGrammar, Item.opens, Item.isBody, hd, h.closed rfl]
        exact ⟨⟨by simp [hctr], fun _ => rfl, fun o ho => by cases ho⟩, rfl⟩
      | some o =>
        obtain ⟨hc, hcrc, hn⟩ := h.opened o rfl
        simp only [scanStep, scanItem, recordGrammar, Item.opens, Item.isBody, Item.closes, hd, hc,
          Crc32.finalize, hcrc]
        by_cases hs : o.key = s
        · by_cases hcc : c = crc (keyVals o.bodies)
          · refine ⟨⟨by simp [hs, hcc, hctr], fun _ => by simp [hs, hcc],
              fun o ho => by cases ho⟩, ?_⟩
            simp [hs, hcc, goodOf, Frame.last, hctr]
            omega
          · refine ⟨⟨by simp [hs, hcc, hctr], fun _ => by simp [hs, hcc],
              fun o ho => by cases ho⟩, ?_⟩
            simp [hs, hcc]
        · refine ⟨⟨by simp [hs, hctr], fun _ => by simp [hs], fun o ho => by cases ho⟩, ?_⟩
          simp [hs]

theorem Tracks.goods (crc : List UInt8 → UInt32) : ∀ (items : List Item) {l : ScanLocals}
    {st : Option (Pending Item NonZeroU32)} {n : Nat}, Tracks l st n →
    scanGoods crc l items = (scanFrom (recordGrammar crc) st n items).map goodOf
  | [], _, _, _, _ => rfl
  | it :: items, l, st, n, h => by
    obtain ⟨ht, hg⟩ := h.step crc it
    rw [scanGoods, scanFrom, List.map_append, ht.goods crc items, hg]
    cases (scanItem (recordGrammar crc) st n it).2 <;> rfl

/-- **The scan hands exactly the valid records to `insert_good`**, in the order
in which they end. -/
theorem scanGoods_eq (items : List Item) (b : Nat) :
    scanGoods E.crc ⟨none, .new, 0, b⟩ items = goodRecords E items := by
  rw [(tracks_init b).goods E.crc items, scanFrom_none]; rfl

/-! ## The cache after a scan -/

theorem finishScan_lastRecords {K : Nat} (s : SeqState K) :
    s.finishScan.lastRecords = s.lastRecords := by
  unfold SeqState.finishScan
  split <;> rfl

@[simp] theorem finishScan_records {K : Nat} (s : SeqState K) : s.finishScan.records = s.records := by
  unfold SeqState.records
  rw [finishScan_lastRecords]

@[simp] theorem finishScan_highestSeen {K : Nat} (s : SeqState K) :
    s.finishScan.highestSeen = s.highestSeen := by
  unfold SeqState.highestSeen
  rw [finishScan_lastRecords]

@[simp] theorem finishScan_needsGc {K : Nat} (s : SeqState K) : s.finishScan.needsGc = s.needsGc := by
  unfold SeqState.finishScan
  split <;> rfl

theorem finishScan_eq_self {K : Nat} {s : SeqState K} {r : GoodWriteRecord}
    (h : s.highestSeen = some r) : s.finishScan = s := by
  unfold SeqState.finishScan
  rw [h]; rfl

theorem scan_isTop (items : List Item) : TopK.IsTop E.kept GoodWriteRecord.seqKey
    (goodRecords E items) (SeqState.scan E items).records := by
  unfold SeqState.scan
  rw [finishScan_records]
  exact SeqState.isTop_insertAll_new E.sorter E.kept_pos _

theorem scan_sorted (items : List Item) : (SeqState.scan E items).Sorted := by
  unfold SeqState.Sorted SeqState.scan
  rw [finishScan_lastRecords]
  exact SeqState.sorted_new.insertAll E.sorter _

/-- What a scan concludes where the storage holds a valid record. -/
structure Found (items : List Item) (s : SeqState E.kept) (r : GoodWriteRecord) : Prop where
  highest : s.highestSeen = some r
  mem : r ∈ goodRecords E items
  max : ∀ x ∈ goodRecords E items, x.seqKey ≤ r.seqKey
  nextSeq : s.nextSeq = r.seq.checkedAdd 1
  needsGc : s.needsGc = true

/-- A scan finds a record with the greatest number, or there is none and numbers
start at one. -/
theorem scan_cases (items : List Item) :
    (goodRecords E items = [] ∧ SeqState.scan E items =
      { SeqState.new with nextSeq := some NonZeroU32.one }) ∨
    ∃ r, Found items (SeqState.scan E items) r := by
  by_cases hne : goodRecords E items = []
  · refine Or.inl ⟨hne, ?_⟩
    unfold SeqState.scan SeqState.finishScan
    rw [hne, SeqState.insertAll_nil, if_pos]
    · rfl
    · simp only [SeqState.highestSeen, SeqState.new, List.getLast?_replicate]
      split <;> rfl
  · right
    obtain ⟨r, hmem, hr, hmax, hnext⟩ :=
      SeqState.highest_insertAll_new E.sorter E.kept_pos hne
    have hins := SeqState.inserted_insertAll_new E.sorter E.kept_pos hne
    have hscan := finishScan_eq_self hr
    refine ⟨r, ?_, hmem, hmax, ?_, ?_⟩
    · exact (congrArg SeqState.highestSeen hscan).trans hr
    · exact (congrArg SeqState.nextSeq hscan).trans hnext
    · exact (congrArg SeqState.needsGc hscan).trans hins.needsGc

/-! ## What a range holds -/

def RangeInclusive.slice {α : Type} (r : RangeInclusive) (l : List α) : List α :=
  (l.drop r.first).take (r.last + 1 - r.first)

/-- The record that a fresh scan of a storage selects: its number and items. -/
def latestRecord (E : Env) (items : List Item) : Option (NonZeroU32 × List Item) :=
  (SeqState.scan E items).highestSeen.map fun r => (r.seq, r.range.slice items)

theorem slice_goodOf {items : List Item} {f : Record} (hf : f ∈ validRecords E items) :
    (goodOf f).range.slice items = f.seg := by
  obtain ⟨pre, post, hs, hk, rfl⟩ := (mem_frames _).mp hf
  have hlen := hk.length
  unfold RangeInclusive.slice
  simp only [goodOf_first, goodOf_last, Frame.last, hs]
  rw [List.append_assoc, List.drop_left, show pre.length + f.seg.length - 1 + 1 - pre.length =
    f.seg.length by omega, List.take_left]

/-- The valid records without their positions, read off the cached ranges. -/
theorem contents_eq_slices (items : List Item) : contents (recordGrammar E.crc) items =
    (goodRecords E items).map fun r => (r.seq, r.range.slice items) := by
  unfold contents goodRecords
  rw [List.map_map]
  refine List.map_congr_left fun f hf => ?_
  show _ = (f.key, (goodOf f).range.slice items)
  rw [slice_goodOf (E := E) hf]

end CfgNoodle

import CfgNoodle.Storage

/-! # The storage list

`process_reads`, `process_writes` and `process_garbage` with the functions they
call. Every loop over the iterator is a recursion over the items it will go
through, with one `nextOr` for each of them and one for the end. -/
namespace CfgNoodle
variable {E : Env}

/-! ## Finding the latest record -/

/-- The local state of the scan. -/
structure ScanLocals where
  current : Option (NonZeroU32 × Nat)
  crc : Crc32
  ctr : Nat
  bytesRead : Nat

/-- One item of the scan: the new local state and the record to insert. -/
def scanStep (crc : List UInt8 → UInt32) (l : ScanLocals) (item : Item) :
    ScanLocals × Option GoodWriteRecord :=
  let idx := l.ctr
  let l := { l with ctr := l.ctr + 1, bytesRead := l.bytesRead + item.len }
  match item.data with
  | none => ({ l with current := none }, none)
  | some (.start seqNo) => ({ l with current := some (seqNo, idx), crc := .new }, none)
  | some (.data data) =>
    if l.current.isNone then (l, none) else ({ l with crc := l.crc.update data.keyVal }, none)
  | some (.end seqNo calcCrc) =>
    match l.current with
    | none => (l, none)
    | some (seq, startIdx) =>
      let checkCrc := l.crc.finalize crc
      let l := { l with current := none, crc := .new }
      if seq ≠ seqNo then (l, none)
      else if calcCrc ≠ checkCrc then (l, none)
      else (l, some ⟨seqNo, ⟨startIdx, idx⟩⟩)

def insertFound : Option GoodWriteRecord → M E Unit
  | none => pure ()
  | some rec => modifySeqState fun s => s.insertGood E.sorter rec

def scanLoop (l : ScanLocals) : List Item → M E ScanLocals
  | [] => do
    nextOr .flashRead
    return l
  | item :: items => do
    nextOr .flashRead
    let (l, good) := scanStep E.crc l item
    insertFound good
    scanLoop l items

/-- The end of the scan: where nothing was found, numbers start at one. -/
def SeqState.finishScan {K : Nat} (s : SeqState K) : SeqState K :=
  if s.highestSeen.isNone then { s with nextSeq := NonZeroU32.new 1 } else s

def getOrPopulateLatest (bytesRead : Nat) : M E (Option GoodWriteRecord × Nat) := do
  let s := (← get).seqState
  if s.initialScanCompleted then return (s.highestSeen, bytesRead)
  else
    let items ← iterElems
    let l ← scanLoop ⟨none, .new, 0, bytesRead⟩ items
    let highest := (← get).seqState.highestSeen
    modifySeqState SeqState.finishScan
    return (highest, l.bytesRead)

/-! ## Hydration -/

def findNode (list : List E.Id) (key : String) : Option E.Id := list.find? fun i => E.key i = key

theorem findNode_isSome {list : List E.Id} {key : String} :
    (findNode list key).isSome = true ↔ key ∈ list.map E.key := by
  simp [findNode, List.find?_isSome]

/-- `deserialize` and the state that follows from its result. -/
def deserialize {T : Type} (vtable : VTable T) (body : List UInt8) (c : Cell T) : Cell T :=
  match vtable.decode body with
  | some t => ⟨.validNoWriteNeeded, some t⟩
  | none => { c with state := .nonResident }

/-- A key and its body are offered to the node with that key. -/
def hydrate (kv : KvPair) (list : List E.Id) (cells : Cells E) : Cells E :=
  match findNode list kv.key with
  | none => cells
  | some i =>
    if (cells i).state = .initial then
      Function.update cells i (deserialize (E.vtable i) kv.body (cells i))
    else cells

/-- A data element is split; one that cannot be is passed over. -/
def hydrateFrom (data : SerData) (list : List E.Id) (cells : Cells E) : Cells E :=
  match data.kvPair E.cbor with
  | .error _ => cells
  | .ok kv => hydrate kv list cells

/-- The items before the record: how many bytes they hold and what follows. -/
def skipLoop : Nat → Nat → List Item → M E (List Item × Nat)
  | 0, total, items => pure (items, total)
  | _ + 1, _, [] => do
    nextOr .flashRead
    fail (.appError .inconsistentFlash)
  | n + 1, total, item :: items => do
    nextOr .flashRead
    skipLoop n (total + item.len) items

def extractLoop (latest : GoodWriteRecord) (total current : Nat) : List Item → M E (Nat × Nat)
  | [] => do
    nextOr .flashRead
    fail (.appError .inconsistentFlash)
  | item :: items => do
    nextOr .flashRead
    let total := total + item.len
    match item.data with
    | some (.data data) =>
      modifyCells (hydrateFrom data)
      extractLoop latest total (current + item.len) items
    | some (.end seqNo _) =>
      if seqNo = latest.seq then return (total, current)
      else fail (.appError .inconsistentFlash)
    | none | some (.start _) => fail (.appError .inconsistentFlash)

def extractAll (latest : GoodWriteRecord) (total : Nat) : M E (Nat × Nat) := do
  let items ← iterElems
  let (items, total) ← skipLoop latest.range.first total items
  -- an error of the storage at this one item is reported as an inconsistency
  nextOr fun _ => .appError .inconsistentFlash
  match items with
  | [] => fail (.appError .inconsistentFlash)
  | item :: items =>
    match item.data with
    | some (.start seqNo) =>
      if latest.seq ≠ seqNo then fail (.appError .inconsistentFlash)
      else extractLoop latest (total + item.len) 0 items
    | _ => fail (.appError .inconsistentFlash)

/-- `Initial` nodes become `NonResident`. -/
def markInitialNonresident (list : List E.Id) (cells : Cells E) : Cells E := fun i =>
  if i ∈ list ∧ (cells i).state = .initial then { cells i with state := .nonResident } else cells i

structure ProcessReadCounters where
  totalBytesRead : Nat
  currentBytesRead : Nat

def processReads : M E ProcessReadCounters := do
  let (res, total) ← getOrPopulateLatest 0
  let (total, current) ← match res with
    | some latest => extractAll latest total
    | none => pure (total, 0)
  modifyCells markInitialNonresident
  return ⟨total, current⟩

/-! ## Writing -/

structure WriteReport where
  seq : NonZeroU32
  crc : UInt32
  ct : Nat
  bytesWritten : Nat

/-- `serialize_node` into a buffer of `n` bytes, given what the data cell
holds: the bytes that were used of it. -/
def serializeNode (cbor : Minicbor) {T : Type} (vtable : VTable T) (key : String) (t : T) (n : Nat) :
    Option (List UInt8) :=
  match (Cursor.new n).encode (cbor.encodeStr key) with
  | (_, false) => none
  | (c, true) =>
    match (Cursor.new (n - c.position)).encode (vtable.encode t) with
    | (_, false) => none
    | (v, true) => some (c.written ++ v.written)

/-- The data element for a node with a value, in a buffer of `bufLen` bytes. -/
def nodeElem (E : Env) (bufLen : Nat) (i : E.Id) (t : E.T i) : Option SerData :=
  match bufLen with
  | 0 => none
  | n + 1 =>
    (serializeNode E.cbor (E.vtable i) (E.key i) t n).bind fun used => SerData.new (0 :: used)

def writeLoop (bufLen : Nat) (crc : Crc32) (bytesWritten ctr : Nat) :
    List E.Id → M E (Crc32 × Nat × Nat)
  | [] => pure (crc, bytesWritten, ctr)
  | i :: list => do
    let cell := (← get).cells i
    if cell.state.hasValue then
      match cell.t with
      | none => throw .ub
      | some t =>
        match nodeElem E bufLen i t with
        | none => fail (.appError .serialization)
        | some data => do
          let used ← push (.data data)
          writeLoop bufLen (crc.update data.keyVal) (bytesWritten + used) (ctr + 1) list
    else writeLoop bufLen crc bytesWritten ctr list

def writeToFlash (bufLen : Nat) (seqNo : NonZeroU32) : M E WriteReport := do
  let used ← push (.start seqNo)
  let (crc, bytesWritten, ctr) ← writeLoop bufLen .new used 0 (← get).list
  let crc := crc.finalize E.crc
  let used ← push (.end seqNo crc)
  return ⟨seqNo, crc, ctr, bytesWritten + used⟩

/-- Fast forward to the first `Start` with the number: how many items were
seen, up to and including it, and what follows. -/
def verifySkip (seq : NonZeroU32) (seen total : Nat) : List Item → M E (List Item × Nat × Nat)
  | [] => do
    nextOr .flashRead
    fail (.appError .inconsistentFlash)
  | item :: items => do
    nextOr .flashRead
    if item.data = some (.start seq) then return (items, seen + 1, total + item.len)
    else verifySkip seq (seen + 1) (total + item.len) items

def verifyLoop (rpt : WriteReport) (startPos seen : Nat) (crc : Crc32) (consumed total : Nat) :
    List Item → M E (RangeInclusive × Nat)
  | [] => do
    nextOr .flashRead
    fail .writeVerificationFailed
  | item :: items => do
    nextOr .flashRead
    let total := total + item.len
    match item.data with
    | none | some (.start _) => fail .writeVerificationFailed
    | some (.data data) =>
      verifyLoop rpt startPos (seen + 1) (crc.update data.keyVal) (consumed + 1) total items
    | some (.end seqNo calcCrc) =>
      let checkCrc := crc.finalize E.crc
      if seqNo = rpt.seq ∧ checkCrc = rpt.crc ∧ calcCrc = rpt.crc ∧ consumed = rpt.ct then
        -- the range ends at the number of items seen, one past the `End`
        return (⟨startPos, seen + 1⟩, total)
      else fail .writeVerificationFailed

def verifyListInFlash (rpt : WriteReport) (total : Nat) : M E (RangeInclusive × Nat) := do
  let items ← iterElems
  let (items, seen, total) ← verifySkip rpt.seq 0 total items
  verifyLoop rpt (seen - 1) seen .new 0 total items

/-- `needs_writing`: some node needs it, or nothing is stored at all. -/
def needsWriting (w : World E) : Except Error Bool :=
  if w.list.any fun i => w.state i = .initial then .error .needsFirstRead
  else .ok ((w.list.any fun i => w.state i = .needsWrite) || w.seqState.highestSeen.isNone)

/-- Every node with a value is marked as written. -/
def markWritten (list : List E.Id) (cells : Cells E) : Cells E := fun i =>
  if i ∈ list ∧ (cells i).state.hasValue then { cells i with state := .validNoWriteNeeded }
  else cells i

structure ProcessWriteCounters where
  totalBytesRead : Nat
  currentBytesWritten : Nat

def processWrites (bufLen : Nat) : M E ProcessWriteCounters := do
  let w ← get
  match w.seqState.nextSeq with
  | none => fail (.appError .needsFirstRead)
  | some nextSeq =>
    if w.seqState.needsGc then fail (.appError .needsGarbageCollect)
    else
      match needsWriting w with
      | .error e => fail (.appError e)
      | .ok false => return ⟨0, 0⟩
      | .ok true => do
        let rpt ← writeToFlash bufLen nextSeq
        let (range, total) ← verifyListInFlash rpt 0
        modifySeqState fun s => s.insertGood E.sorter ⟨nextSeq, range⟩
        modifyCells markWritten
        return ⟨total, rpt.bytesWritten⟩

/-! ## Collecting garbage -/

/-- Does a good record contain the iterator index? -/
def lastRecordsContain {K : Nat} (s : SeqState K) (n : Nat) : Bool :=
  s.lastRecords.any fun r => r.any fun r => r.range.contains n

/-- The first section with the mutex: take the cache, if a collection is due. -/
def gcTake : M E (Option (SeqState E.kept)) := do
  let s := (← get).seqState
  if s.needsGc then
    modifySeqState fun _ => SeqState.new
    return some s
  else return none

/-- The collection loop. `idx` counts the items, `stay` those that were left
in the storage: the position of the current one. -/
def gcLoop (cur : SeqState E.kept) (idx stay total popped : Nat) : List Item → M E (Nat × Nat)
  | [] => do
    nextOr .flashRead
    return (total, popped)
  | item :: items => do
    nextOr .flashRead
    let used := item.len
    if item.data.isNone || !lastRecordsContain cur idx then do
      invalidate stay
      gcLoop cur (idx + 1) stay (total + used) (popped + used) items
    else gcLoop cur (idx + 1) (stay + 1) (total + used) popped items

def gcCollect (cur : SeqState E.kept) : M E (Nat × Nat) := do
  let items ← iterElems
  gcLoop cur 0 0 0 0 items

/-- The last section: scan again. -/
def gcFinish : M E Nat := do
  let (_, post) ← getOrPopulateLatest 0
  modifySeqState fun s => { s with needsGc := false }
  return post

structure ProcessGarbageCounters where
  totalBytesRead : Nat
  postCollectionBytesRead : Nat
  totalBytesPopped : Nat

def processGarbage : M E ProcessGarbageCounters := do
  match ← gcTake with
  | none => return ⟨0, 0, 0⟩
  | some cur => do
    let (total, popped) ← gcCollect cur
    let post ← gcFinish
    return ⟨total + post, post, popped⟩

def resetCache : M E Unit := modifySeqState fun _ => SeqState.new

end CfgNoodle

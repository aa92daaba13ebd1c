import CfgNoodle.CleanNodes

/-! # Falling back from a damaged record

A storage of whole records of which the newest was damaged. Unless the damage
left a valid record, a boot takes its values from the record before it, and the
collection removes what is left of the damaged one before its number is handed
out again. -/
namespace CfgNoodle
open Framing Outcome
open scoped List
variable {E : Env}

/-- What damage makes of the items of a record: each is as it was, is gone, does
not decode any more or, if it is a data element, has other bytes. -/
inductive Damaged : List Item → List Item → Prop
  | nil : Damaged [] []
  | kept {a b : List Item} (it : Item) (h : Damaged a b) : Damaged (it :: a) (it :: b)
  | dropped {a b : List Item} (it : Item) (h : Damaged a b) : Damaged (it :: a) b
  | undecodable {a b : List Item} (it : Item) (len call : Nat) (h : Damaged a b) :
      Damaged (it :: a) (⟨none, len, call⟩ :: b)
  | changed {a b : List Item} {it : Item} {d : SerData} (hd : it.data = some (.data d))
      (d' : SerData) (len call : Nat) (h : Damaged a b) :
      Damaged (it :: a) (⟨some (.data d'), len, call⟩ :: b)

/-- No `Start` comes from damage. -/
theorem Damaged.start_mem {a b : List Item} (h : Damaged a b) {it : Item} {s : NonZeroU32}
    (hit : it ∈ b) (hs : it.data = some (.start s)) : it ∈ a := by
  induction h with
  | nil => exact hit
  | kept x _ ih =>
    rcases List.mem_cons.mp hit with rfl | hit
    · exact List.mem_cons_self
    · exact List.mem_cons_of_mem x (ih hit)
  | dropped x _ ih => exact List.mem_cons_of_mem x (ih hit)
  | undecodable x len call _ ih =>
    rcases List.mem_cons.mp hit with rfl | hit
    · cases hs
    · exact List.mem_cons_of_mem x (ih hit)
  | changed _ d' len call _ ih =>
    rcases List.mem_cons.mp hit with rfl | hit
    · cases hs
    · exact List.mem_cons_of_mem _ (ih hit)

/-- A valid record in what is left of a damaged one has its number. -/
theorem Damaged.key_eq {n : NonZeroU32} {seg dmg : List Item} (hseg : IsRecord E n seg)
    (h : Damaged seg dmg) {f : Record} (hf : f ∈ validRecords E dmg) : f.key = n := by
  obtain ⟨pre, post, _, hk, hitems⟩ := (mem_frames _).mp hf
  obtain ⟨o, bs, c, hs, ho, _⟩ := IsRecord.elim hk
  have hmem : o ∈ dmg := by rw [hitems, hs]; simp
  exact (IsRecord.start_eq hseg (h.start_mem hmem ho) ho).symm

/-- Whole records, one after the other, with increasing numbers. -/
structure Consists (E : Env) (recs : List (NonZeroU32 × List Item)) : Prop where
  whole : ∀ p ∈ recs, IsRecord E p.1 p.2
  increasing : recs.Pairwise fun p q => p.1.get < q.1.get
  below : ∀ p ∈ recs, p.1.get < NonZeroU32.MAX

/-- The items of these records. -/
def itemsOf (recs : List (NonZeroU32 × List Item)) : List Item := (recs.map Prod.snd).flatten

/-- Unless the damage left a valid record, only the other records are valid. -/
theorem contents_damaged {older : List (NonZeroU32 × List Item)} {n : NonZeroU32}
    {seg dmg : List Item} (h : Consists E (older ++ [(n, seg)])) (hd : Damaged seg dmg)
    (hno : ∀ f ∈ validRecords E (itemsOf older ++ dmg), f.key ≠ n) :
    contents (recordGrammar E.crc) (itemsOf older ++ dmg) = older := by
  have hsplit : contents (recordGrammar E.crc) (itemsOf older ++ dmg) =
      older ++ contents (recordGrammar E.crc) dmg :=
    contents_flatten_append _ dmg fun p hp => h.whole p (List.mem_append_left _ hp)
  have hnil : contents (recordGrammar E.crc) dmg = [] := by
    refine List.eq_nil_iff_forall_not_mem.mpr fun p hp => ?_
    obtain ⟨f, hf, rfl⟩ := mem_contents.mp hp
    have hkey := hd.key_eq (h.whole (n, seg) (by simp)) hf
    obtain ⟨g, hg, heq⟩ := mem_contents.mp (hsplit ▸ List.mem_append_right older hp)
    exact hno g hg ((congrArg Prod.fst heq).trans hkey)
  rw [hsplit, hnil, List.append_nil]

/-- The record that a scan of whole records selects is the last of them. -/
theorem latestDatas_of_contents {items : List Item} {recs : List (NonZeroU32 × List Item)}
    (h : contents (recordGrammar E.crc) items = recs)
    (hinc : recs.Pairwise fun p q => p.1.get < q.1.get) (hne : recs ≠ []) :
    Distinct E items ∧ latestDatas E items = datas (recs.getLast hne).2 := by
  have hd : Distinct E items := by
    have hkeys : (validRecords E items).map Frame.key = recs.map Prod.fst := by
      rw [← h, contents, List.map_map]
      rfl
    simp only [Distinct]
    rw [hkeys]
    refine List.pairwise_map.mpr (hinc.imp fun hlt he => ?_)
    rw [he] at hlt
    exact Nat.lt_irrefl _ hlt
  have hlast : recs.getLast hne ∈ contents (recordGrammar E.crc) items := by
    rw [h]
    exact List.getLast_mem hne
  obtain ⟨f, hf, heq⟩ := mem_contents.mp hlast
  have hmax : ∀ g ∈ validRecords E items, g.key.get ≤ f.key.get := by
    intro g hg
    have hmem : (g.key, g.seg) ∈ recs := h ▸ mem_contents.mpr ⟨g, hg, rfl⟩
    rw [← List.dropLast_append_getLast hne] at hinc hmem
    rw [show f.key = (recs.getLast hne).1 from congrArg Prod.fst heq]
    rcases List.mem_append.mp hmem with hmem | hmem
    · exact ((List.pairwise_append.mp hinc).2.2 _ hmem _ (List.mem_singleton_self _)).le
    · rw [← List.mem_singleton.mp hmem]
  refine ⟨hd, ?_⟩
  simp only [latestDatas]
  rw [latestRecord_of_max hd hf hmax]
  exact congrArg (fun p => datas p.2) heq

/-- **A boot falls back to the record before a damaged one.** The state in which
the nodes are written is any with the storage and the cache that `process_reads`
and `process_garbage` left. -/
theorem damaged_record_skipped {older : List (NonZeroU32 × List Item)} {n : NonZeroU32}
    {seg dmg : List Item} {nodes : List E.Id} (hk : ∀ i, E.cbor.Canonical (E.key i))
    (hcodec : ∀ i (t : E.T i), (E.vtable i).decode ((E.vtable i).encode t).flatten = some t)
    (h : Consists E (older ++ [(n, seg)])) (hne : older ≠ []) (hd : Damaged seg dmg)
    (hno : ∀ f ∈ validRecords E (itemsOf older ++ dmg), f.key ≠ n)
    (hnd : (nodes.map E.key).Nodup) :
    ∃ c1 w1 c2 w2, processReads (World.bootWith (itemsOf older ++ dmg) nodes) = .ok c1 w1 ∧
      (∀ i ∈ nodes, w1.cells i = hydratedFrom E (datas (older.getLast hne).2) i) ∧
      processGarbage w1 = .ok c2 w2 ∧
      ∀ (w : World E) (bufLen : Nat), w.items = w2.items → w.seqState = w2.seqState →
        w.faults = .none → (w.list.map E.key).Nodup → Writable w → Fits bufLen w →
        ∃ c3 w3, processWrites bufLen w = .ok c3 w3 ∧ Restores w w3.items := by
  have hcont := contents_damaged h hd hno
  have hmax : ∀ f ∈ validRecords E (itemsOf older ++ dmg), f.key.get < NonZeroU32.MAX := by
    intro f hf
    have hmem : (f.key, f.seg) ∈ older := hcont ▸ mem_contents.mpr ⟨f, hf, rfl⟩
    exact h.below _ (List.mem_append_left _ hmem)
  obtain ⟨hdist, hdatas⟩ := latestDatas_of_contents hcont (List.pairwise_append.mp h.increasing).1 hne
  obtain ⟨c1, w1, hread, hitems1, hseq1, hf1, _, hcells⟩ := boot_hydrates hdist hmax hnd
  obtain ⟨c2, w2, s, hgc, hnext, hclean, habove, hiff⟩ := boot_garbage hmax ⟨hitems1, hseq1, hf1⟩
  refine ⟨c1, w1, c2, w2, hread, hdatas ▸ hcells, hgc, fun w bufLen hitems hseq hf hnd' hwr hfits => ?_⟩
  have hrec : Recoverable E (itemsOf older ++ dmg) := by
    refine Or.inl fun hnil => hne ?_
    rw [← hcont, contents, show frames (recordGrammar E.crc) (itemsOf older ++ dmg) = [] from hnil]
    rfl
  have hdue := hwr.writeDue (hseq ▸ hnext) (hseq ▸ hclean)
  exact (write_restores_iff hk hcodec hf hnd' hfits hdue (hitems ▸ habove)).mpr
    (hitems ▸ hiff.mpr hrec)

/-- The older of two records, and the newer one. -/
def olderOne : NonZeroU32 × List Item :=
  (NonZeroU32.one, recordItems twoSettings NonZeroU32.one [dataA 1] 0)

def newerOne : NonZeroU32 × List Item :=
  (newer.key, recordItems twoSettings newer.key [dataA 2] 1)

/-- The newer record has lost its `End`, and its value has changed. -/
def withoutEnd : List Item :=
  [stored twoSettings 1 (.start newer.key), stored twoSettings 1 (.data (dataA 3))]

theorem consists_two : Consists twoSettings ([olderOne] ++ [newerOne]) := by
  refine ⟨fun p hp => ?_, by decide, by decide⟩
  rcases List.mem_cons.mp hp with rfl | hp
  · exact isRecord_recordItems _ _ _
  · obtain rfl := List.mem_singleton.mp hp
    exact isRecord_recordItems _ _ _

theorem damaged_withoutEnd : Damaged newerOne.2 withoutEnd :=
  .kept _ (.changed rfl (dataA 3) _ _ (.dropped _ .nil))

theorem damaged_record_skipped_two : ∃ c1 w1 c2 w2,
    processReads (World.bootWith (E := twoSettings) (itemsOf [olderOne] ++ withoutEnd) [settingA]) =
        .ok c1 w1 ∧
      (∀ i ∈ [settingA], w1.cells i = hydratedFrom twoSettings
        (datas ([olderOne].getLast (List.cons_ne_nil olderOne [])).2) i) ∧
      processGarbage w1 = .ok c2 w2 ∧
      ∀ (w : World twoSettings) (bufLen : Nat), w.items = w2.items → w.seqState = w2.seqState →
        w.faults = .none → (w.list.map twoSettings.key).Nodup → Writable w → Fits bufLen w →
        ∃ c3 w3, processWrites bufLen w = .ok c3 w3 ∧ Restores w w3.items := by
  have hno : ∀ f ∈ validRecords twoSettings (itemsOf [olderOne] ++ withoutEnd),
      f.key ≠ newerOne.1 := by
    decide +kernel
  exact damaged_record_skipped twoSettings_canonical settings_codec consists_two
    (List.cons_ne_nil _ _) damaged_withoutEnd hno (List.nodup_singleton _)

end CfgNoodle

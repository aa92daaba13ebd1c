import CfgNoodle.Reboots

/-! # Firmware upgrades

A device whose firmware is replaced again and again, by firmware with other nodes,
or other types under the same keys. What one version has stored is read by the
next with its own decoders; where a decoder fails the node gets its default, as
if nothing had been stored. -/
namespace CfgNoodle
open Outcome Runs
variable {E : Env} {ν : Type}

/-! ## Versions -/

/-- The nodes of a program. Their keys are written as `minicbor` reads them, and their
codecs read what they write. -/
structure Firmware (E : Env) where
  Id : Type
  decId : DecidableEq Id
  T : Id → Type
  key : Id → String
  vtable : (i : Id) → VTable (T i)
  canonical : ∀ i, E.cbor.Canonical (key i)
  codec : ∀ i (t : T i), (vtable i).decode ((vtable i).encode t).flatten = some t

/-- The same device and crate with the nodes of this program. -/
def Env.runs (E : Env) (f : Firmware E) : Env :=
  { E with Id := f.Id, decId := f.decId, T := f.T, key := f.key, vtable := f.vtable }

/-- What a record of the list's values has for a key. -/
def ListState.encodings (s : ListState E) (key : String) : Option (List UInt8) :=
  (findNode s.world.list key).bind fun i =>
    (s.world.cells i).t.map fun t => ((E.vtable i).encode t).flatten

/-- A device that runs one of some versions, and what was saved last. -/
structure Product (firmware : ν → Firmware E) where
  version : ν
  list : ListState (E.runs (firmware version))
  saved : String → Option (List UInt8)

inductive Event (firmware : ν → Firmware E)
  | run {v : ν} (c : Section (E.runs (firmware v)))
  | upgrade (v : ν) (addr : Nat)

variable {firmware : ν → Firmware E}

/-- A section of the program that runs. A call that adds its record saves the values. -/
def Product.next (d : Product firmware) (c : Section (E.runs (firmware d.version))) :
    Product firmware where
  version := d.version
  list := d.list.step c
  saved := if Flushed (d.list, c, d.list.step c) then d.list.encodings else d.saved

inductive Evolves : Product firmware → Event firmware → Product firmware → Prop
  | run (d : Product firmware) (c : Section (E.runs (firmware d.version)))
      (hc : Storing d.list c (d.list.step c)) : Evolves d (.run c) (d.next c)
  | upgrade (d : Product firmware) (v : ν) (addr : Nat) :
      Evolves d (.upgrade v addr) ⟨v, .boot addr d.list.world.items, d.saved⟩

/-- The device boots with any version on these items. -/
def products (firmware : ν → Firmware E) (items : List Item) :
    System (Product firmware) (Event firmware) where
  init d := ∃ v addr, d = ⟨v, .boot addr items, durable E items⟩
  step := Evolves

theorem reachable_next {items : List Item} {d : Product firmware}
    (h : (products firmware items).Reachable d) (c : Section (E.runs (firmware d.version)))
    (hc : Storing d.list c (d.list.step c)) : (products firmware items).Reachable (d.next c) :=
  h.step (.run d c hc)

/-! ## What was saved -/

/-- A record of the values is a snapshot of them. -/
theorem Linked.snapshot {s : ListState E} (h : Linked s) :
    WriteBack.Snapshot s.store.live s.encodings := by
  refine ⟨fun i t ht => ?_, fun key hkey => ?_⟩
  · have ht : (s.world.cells i).t = some t := ht
    have hi : i ∈ s.world.list := by
      by_contra hi
      rw [h.out i hi] at ht
      cases ht
    show s.encodings (E.key i) = some ((E.vtable i).encode t).flatten
    unfold ListState.encodings
    rw [findNode_eq h.keys hi]
    show (s.world.cells i).t.map _ = _
    rw [ht]
    rfl
  · unfold ListState.encodings
    cases hf : findNode s.world.list key with
    | none => rfl
    | some i =>
      have hik : E.key i = key := by simpa using List.find?_some hf
      have hi : (s.world.cells i).t = none := hkey i hik
      show (s.world.cells i).t.map _ = none
      rw [hi]
      rfl

/-- The newest record has what was saved last. -/
structure Kept (d : Product firmware) : Prop extends SectionInv d.list where
  saved : durable E d.list.world.items = d.saved

theorem Kept.run {d : Product firmware} (h : Kept d) {c : Section (E.runs (firmware d.version))}
    (hc : Storing d.list c (d.list.step c)) : Kept (d.next c) := by
  have hk := (firmware d.version).canonical
  have hstep := storeOp_step h.toSectionInv hk hc
  refine ⟨h.toSectionInv.storing hk (firmware d.version).codec hc, ?_⟩
  by_cases hf : Flushed (d.list, c, d.list.step c) = true
  · have hsaved : (d.next c).saved = d.list.encodings := if_pos hf
    rw [hsaved]
    rw [storeOp_eq_flush.mpr hf] at hstep
    exact hstep.snapshot.unique h.linked.snapshot
  · have hsaved : (d.next c).saved = d.saved := if_neg hf
    rw [hsaved, ← h.saved]
    exact hstep.durable_eq fun hop => hf (storeOp_eq_flush.mp hop)

theorem Kept.upgrade {d : Product firmware} (h : Kept d) (v : ν) (addr : Nat) :
    Kept (⟨v, .boot addr d.list.world.items, d.saved⟩ : Product firmware) :=
  ⟨sectionInv_boot (E := E.runs (firmware v)) ⟨h.distinct, h.below⟩ addr, h.saved⟩

theorem kept_reachable {items : List Item} (hn : NumbersBelow E items) {d : Product firmware}
    (hd : (products firmware items).Reachable d) : Kept d := by
  refine hd.invariant ?_ ?_
  · intro d hi
    obtain ⟨v, addr, rfl⟩ := hi
    exact ⟨sectionInv_boot (E := E.runs (firmware v)) ⟨hn.distinct, hn.below⟩ addr, rfl⟩
  · intro d e d' hi hstep
    cases hstep with
    | run c hc => exact hi.run hc
    | upgrade v addr => exact hi.upgrade v addr

theorem reachable_nodes {items : List Item} (hn : NumbersBelow E items) {d : Product firmware}
    (h : (products firmware items).Reachable d) {c : Section (E.runs (firmware d.version))}
    (hc : ByNodes c) : (products firmware items).Reachable (d.next c) :=
  reachable_next h c ((kept_reachable hn h).storing_nodes hc)

/-! ## What the next version reads -/

theorem hydratedFrom_of_decode {ds : List SerData} {i : E.Id} {t : E.T i}
    (h : (bodyFor E.cbor (E.key i) ds).bind (E.vtable i).decode = some t) :
    hydratedFrom E ds i = ⟨.validNoWriteNeeded, some t⟩ := by
  obtain ⟨body, hb, ht⟩ := Option.bind_eq_some_iff.mp h
  unfold hydratedFrom
  rw [hb]
  show deserialize (E.vtable i) body Cell.new = _
  unfold deserialize
  rw [ht]

theorem hydratedFrom_of_not_decode {ds : List SerData} {i : E.Id}
    (h : (bodyFor E.cbor (E.key i) ds).bind (E.vtable i).decode = none) :
    hydratedFrom E ds i = ⟨.nonResident, none⟩ := by
  unfold hydratedFrom
  cases hb : bodyFor E.cbor (E.key i) ds with
  | none => rfl
  | some body =>
    have ht : (E.vtable i).decode body = none := by
      rw [hb] at h
      exact h
    show deserialize (E.vtable i) body Cell.new = _
    unfold deserialize
    rw [ht]
    rfl

/-- What a version makes of a saved encoding. -/
def readBack (f : Firmware E) (saved : String → Option (List UInt8)) (i : f.Id) : Option (f.T i) :=
  (saved (f.key i)).bind (f.vtable i).decode

/-- **Upgrades keep what the new firmware can read**: at any time, after any history of
sections and upgrades, every version boots with just what was saved last. A node
whose decoder accepts what was saved under its key has that value, and every other
one is `NonResident`, so that it gets its default. -/
theorem upgrade_reads_saved {items : List Item} (hn : NumbersBelow E items) {d : Product firmware}
    (hd : (products firmware items).Reachable d) (v : ν) {list : List (firmware v).Id}
    (hkeys : (list.map (firmware v).key).Nodup) :
    ∃ c w, processReads (World.bootWith (E := E.runs (firmware v)) d.list.world.items list) = .ok c w ∧
      ∀ i ∈ list,
        (∀ t, readBack (firmware v) d.saved i = some t → w.cells i = ⟨.validNoWriteNeeded, some t⟩) ∧
        (readBack (firmware v) d.saved i = none → w.cells i = ⟨.nonResident, none⟩) := by
  have h := kept_reachable hn hd
  obtain ⟨c, w, hrun, _, _, _, _, hcell⟩ :=
    boot_hydrates (E := E.runs (firmware v)) h.distinct h.below hkeys
  refine ⟨c, w, hrun, fun i hi => ?_⟩
  have hsaved : bodyFor E.cbor ((firmware v).key i) (latestDatas E d.list.world.items) =
      d.saved ((firmware v).key i) := congrFun h.saved ((firmware v).key i)
  unfold readBack
  rw [hcell i hi, ← hsaved]
  exact ⟨fun _ ht => hydratedFrom_of_decode (E := E.runs (firmware v)) ht,
    fun hnone => hydratedFrom_of_not_decode (E := E.runs (firmware v)) hnone⟩

/-- `Encode`, `Decode` and `CborLen` of a `bool`. -/
def minicborBool : VTable Bool where
  encode t := [[if t then 0xf5 else 0xf4]]
  decode
    | 0xf4 :: _ => some false
    | 0xf5 :: _ => some true
    | _ => none
  cborLen _ := 1

/-- Two settings, and a version in which the first has become a `bool`. -/
def versions : Bool → Firmware twoSettings
  | false =>
    { twoSettings with
      canonical := twoSettings_canonical
      codec := settings_codec }
  | true =>
    { Id := Bool
      decId := inferInstance
      T i := match i with | false => Bool | true => UInt8
      key i := match i with | false => "a" | true => "b"
      vtable i := match i with | false => minicborBool | true => minicborU8
      canonical i := match i with | false => twoSettings_canonical settingA | true => twoSettings_canonical settingB
      codec i := match i with | false => fun t => by cases t <;> rfl | true => decode_encode_u8 }

set_option maxRecDepth 4000 in
/-- Both settings are written by the first version. -/
theorem exists_saved : ∃ d : Product versions, (products versions []).Reachable d ∧
    d.saved "a" = some [7] ∧ d.saved "b" = some [9] := by
  have h0 : (products versions []).Reachable ⟨false, .boot 0 [], durable twoSettings []⟩ :=
    .init ⟨false, 0, rfl⟩
  have h1 := reachable_nodes numbersBelow_nil h0 (c := (.attach settingA)) trivial
  have h2 := reachable_nodes numbersBelow_nil h1 (c := (.attach settingB)) trivial
  have h3 := reachable_next h2 (.processReads .none) ⟨noReadError_none, by decide +kernel⟩
  have h4 := reachable_nodes numbersBelow_nil h3 (c := (.observe settingA)) trivial
  have h5 := reachable_nodes numbersBelow_nil h4 (c := (.writeDefault settingA (7 : UInt8))) trivial
  have h6 := reachable_nodes numbersBelow_nil h5 (c := (.observe settingB)) trivial
  have h7 := reachable_nodes numbersBelow_nil h6 (c := (.writeDefault settingB (9 : UInt8))) trivial
  have h8 := reachable_next h7 (.processWrites 64 .none) ⟨by decide +kernel, by decide +kernel⟩
  exact ⟨_, h8, by decide +kernel, by decide +kernel⟩

/-- The second one takes over the setting that is still a `u8`. -/
theorem versions_read_saved : ∃ d : Product versions, (products versions []).Reachable d ∧
    ∃ c w, processReads (World.bootWith (E := twoSettings.runs (versions true)) d.list.world.items
      [false, true]) = .ok c w ∧ w.cells false = ⟨.nonResident, none⟩ ∧
      w.cells true = ⟨.validNoWriteNeeded, some (9 : UInt8)⟩ := by
  obtain ⟨d, hd, ha, hb⟩ := exists_saved
  have hkeys : (([false, true] : List (versions true).Id).map (versions true).key).Nodup := by decide
  obtain ⟨c, w, hrun, hcell⟩ := upgrade_reads_saved numbersBelow_nil hd true hkeys
  refine ⟨d, hd, c, w, hrun, (hcell false List.mem_cons_self).2 ?_,
    (hcell true (List.mem_cons_of_mem _ List.mem_cons_self)).1 _ ?_⟩
  · show (d.saved "a").bind minicborBool.decode = none
    rw [ha]
    rfl
  · show (d.saved "b").bind minicborU8.decode = some 9
    rw [hb]
    exact decode_encode_u8 9

end CfgNoodle

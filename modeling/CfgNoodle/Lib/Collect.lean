import CfgNoodle.Lib.Framing

/-! # Collecting garbage from a log

A collection walks over a log once and deletes, one by one, the items whose
index it was not told to keep; it may stop after any item. If the indices to
keep are those of some complete frames of the log, no stopping point glues the
remains of deleted items into a new frame, and none of the kept frames is lost
(`contents_collect`). -/
namespace Framing
open scoped List

/-- The items of a log whose index is kept; the first item has index `n`. -/
def survive {ι : Type} (keep : Nat → Bool) : Nat → List ι → List ι
  | _, [] => []
  | n, x :: xs => if keep n then x :: survive keep (n + 1) xs else survive keep (n + 1) xs

/-- The log after a collection has dealt with its first `p` items. -/
def collect {ι : Type} (keep : Nat → Bool) (n p : Nat) (l : List ι) : List ι :=
  survive keep n (l.take p) ++ l.drop p

section Survive
variable {ι : Type} (keep : Nat → Bool)

theorem survive_append (b a : List ι) (n : Nat) :
    survive keep n (a ++ b) = survive keep n a ++ survive keep (n + a.length) b := by
  induction a generalizing n with
  | nil => rfl
  | cons x a ih =>
    rw [List.cons_append, survive, survive, ih, List.length_cons, Nat.add_assoc, Nat.add_comm 1]
    split <;> simp

theorem survive_sublist (l : List ι) (n : Nat) : survive keep n l <+ l := by
  induction l generalizing n with
  | nil => exact List.Sublist.refl _
  | cons x l ih =>
    rw [survive]
    split
    · exact (ih _).cons_cons x
    · exact (ih _).cons x

theorem exists_of_mem_survive {x : ι} {l : List ι} {n : Nat} (h : x ∈ survive keep n l) :
    ∃ i, l[i]? = some x ∧ keep (n + i) = true := by
  induction l generalizing n with
  | nil => cases h
  | cons y l ih =>
    rw [survive] at h
    by_cases hn : keep n = true
    · rw [if_pos hn] at h
      rcases List.mem_cons.mp h with rfl | h
      · exact ⟨0, rfl, hn⟩
      · obtain ⟨i, hi, hk⟩ := ih h
        exact ⟨i + 1, hi, by rwa [show n + (i + 1) = n + 1 + i by omega]⟩
    · rw [if_neg hn] at h
      obtain ⟨i, hi, hk⟩ := ih h
      exact ⟨i + 1, hi, by rwa [show n + (i + 1) = n + 1 + i by omega]⟩

theorem survive_all (l : List ι) (n : Nat)
    (h : ∀ i, n ≤ i → i < n + l.length → keep i = true) : survive keep n l = l := by
  induction l generalizing n with
  | nil => rfl
  | cons x l ih =>
    rw [survive, if_pos (h n (by omega) (by simp)),
      ih (n + 1) fun i hi hl => h i (by omega) (by simp at hl ⊢; omega)]

@[simp] theorem collect_zero (n : Nat) (l : List ι) : collect keep n 0 l = l := by
  simp [collect, survive]

theorem collect_length (n : Nat) (l : List ι) {p : Nat} (h : l.length ≤ p) :
    collect keep n p l = survive keep n l := by
  simp [collect, List.take_of_length_le h, List.drop_eq_nil_of_le h]

theorem collect_succ_cons (n p : Nat) (x : ι) (l : List ι) :
    collect keep n (p + 1) (x :: l) =
      if keep n then x :: collect keep (n + 1) p l else collect keep (n + 1) p l := by
  simp only [collect, List.take_succ_cons, List.drop_succ_cons, survive]
  split <;> rfl

theorem collect_sublist (n p : Nat) (l : List ι) : collect keep n p l <+ l := by
  have h := (survive_sublist keep (l.take p) n).append_right (l.drop p)
  rwa [List.take_append_drop] at h

/-- Past a first part of the log, a collection leaves what survives of it. -/
theorem collect_append_right (b : List ι) (n p : Nat) (a : List ι) :
    collect keep n (a.length + p) (a ++ b) =
      survive keep n a ++ collect keep (n + a.length) p b := by
  have ha : a.drop (a.length + p) = [] := List.drop_eq_nil_of_le (by omega)
  simp [collect, List.take_append, List.drop_append, survive_append, ha,
    List.take_of_length_le (Nat.le_add_right a.length p)]

theorem collect_append_left (b : List ι) (n p : Nat) (a : List ι) (h : p ≤ a.length) :
    collect keep n p (a ++ b) = collect keep n p a ++ b := by
  simp [collect, List.take_append_of_le_length h, List.drop_append_of_le_length h]

/-- A collection does not touch a part of the log that it keeps entirely. -/
theorem collect_keeps (n p : Nat) (pre seg post : List ι)
    (h : ∀ i, n + pre.length ≤ i → i < n + pre.length + seg.length → keep i = true) :
    ∃ pre' post', collect keep n p (pre ++ seg ++ post) = pre' ++ seg ++ post' ∧
      pre' <+ pre ∧ post' <+ post := by
  rcases Nat.le_total p pre.length with hp | hp
  · refine ⟨collect keep n p pre, post, ?_, collect_sublist keep n p pre, List.Sublist.refl _⟩
    rw [List.append_assoc, collect_append_left keep _ n p pre hp, List.append_assoc]
  · obtain ⟨q, rfl⟩ := Nat.exists_eq_add_of_le hp
    rw [List.append_assoc, collect_append_right]
    rcases Nat.le_total q seg.length with hq | hq
    · refine ⟨survive keep n pre, post, ?_, survive_sublist keep pre n, List.Sublist.refl _⟩
      rw [collect_append_left keep _ _ q seg hq, collect, survive_all keep (seg.take q),
        List.take_append_drop, List.append_assoc]
      intro i hi hl
      rw [List.length_take] at hl
      exact h i hi (by omega)
    · obtain ⟨r, rfl⟩ := Nat.exists_eq_add_of_le hq
      refine ⟨survive keep n pre, collect keep (n + pre.length + seg.length) r post, ?_,
        survive_sublist keep pre n, collect_sublist keep _ r post⟩
      rw [collect_append_right, survive_all keep seg _ h, List.append_assoc]

end Survive

variable {ι κ : Type} (G : Grammar ι κ)

/-- The frames of a log without their positions. -/
def contents (l : List ι) : List (κ × List ι) := (frames G l).map fun f => (f.key, f.seg)

theorem contents_eq (n : Nat) (l : List ι) :
    (framesFrom G n l).map (fun f => (f.key, f.seg)) = contents G l := by
  rw [framesFrom_eq, List.map_map]; rfl

theorem contents_frame_append {k : κ} {seg : List ι} (h : IsFrame G k seg) (b : List ι) :
    contents G (seg ++ b) = (k, seg) :: contents G b := by
  rw [contents, frames, framesFrom_frame_append G h, List.map_cons, contents_eq]

theorem contents_single (x : ι) : contents G [x] = [] := by
  simp only [contents, frames, framesFrom, framesFrom, headFrame]
  cases G.opens x <;> simp [closeFrom]

/-- An item before one that opens, or before nothing, is in no frame. -/
theorem contents_lone {x : ι} {l : List ι} (h : ∀ y ∈ l.head?, G.opens y ≠ none) :
    contents G (x :: l) = contents G l := by
  cases l with
  | nil => exact contents_single G x
  | cons y l =>
    obtain ⟨k, hk⟩ := Option.ne_none_iff_exists'.mp (h y rfl)
    have happ := framesFrom_append_barrier G (barrier_of_opens G hk) l [x] 0
    rw [← contents_eq G 0 (x :: y :: l), show x :: y :: l = [x] ++ y :: l from rfl, happ,
      List.map_append, contents_eq, contents_eq, contents_single, List.nil_append]

theorem contents_flatten_append (b : List ι) : ∀ {segs : List (κ × List ι)},
    (∀ p ∈ segs, IsFrame G p.1 p.2) →
    contents G ((segs.map Prod.snd).flatten ++ b) = segs ++ contents G b
  | [], _ => rfl
  | (k, seg) :: segs, h => by
    have hk : IsFrame G k seg := h (k, seg) List.mem_cons_self
    rw [List.map_cons, List.flatten_cons, List.append_assoc, contents_frame_append G hk,
      contents_flatten_append b fun p hp => h p (List.mem_cons_of_mem _ hp), List.cons_append]

theorem contents_cons (x : ι) (l : List ι) : contents G l <+ contents G (x :: l) := by
  rw [← contents_eq G 1 l, contents, frames, framesFrom, List.map_append]
  exact List.sublist_append_right _ _

/-- An interleaving of complete frames with items that belong to none of them;
the first item has index `n`. -/
inductive Laid : Nat → List ι → List (Frame ι κ) → Prop
  | nil (n : Nat) : Laid n [] []
  | skip {n : Nat} {x : ι} {l : List ι} {fs : List (Frame ι κ)} :
      Laid (n + 1) l fs → Laid n (x :: l) fs
  | frame {n : Nat} {k : κ} {seg l : List ι} {fs : List (Frame ι κ)} :
      IsFrame G k seg → Laid (n + seg.length) l fs → Laid n (seg ++ l) (⟨k, n, seg⟩ :: fs)

/-- Any choice of frames of a log lays it out. -/
theorem Laid.of_sublist : ∀ (m : Nat) (l : List ι) (n : Nat) (fs : List (Frame ι κ)),
    l.length ≤ m → fs <+ framesFrom G n l → Laid G n l fs
  | _, [], n, fs, _, h => by
    rw [framesFrom, List.sublist_nil] at h
    exact h ▸ .nil n
  | m + 1, x :: xs, n, fs, hm, h => by
    have hm' : xs.length ≤ m := by simpa using hm
    cases hh : headFrame G (x :: xs) with
    | none =>
      rw [framesFrom, hh] at h
      exact .skip (Laid.of_sublist m xs (n + 1) fs hm' (by simpa using h))
    | some p =>
      obtain ⟨k, seg⟩ := p
      obtain ⟨hf, rest, hr⟩ := (headFrame_eq_some G).mp hh
      have hlen := congrArg List.length hr
      have h2 := hf.length
      simp only [List.length_append, List.length_cons] at hlen
      have heq : framesFrom G n (x :: xs) = ⟨k, n, seg⟩ :: framesFrom G (n + seg.length) rest := by
        rw [← hr, framesFrom_frame_append G hf]
      have htail : framesFrom G (n + 1) xs = framesFrom G (n + seg.length) rest := by
        rw [framesFrom, hh] at heq
        simpa using heq
      rw [heq] at h
      cases fs with
      | nil => exact .skip (Laid.of_sublist m xs (n + 1) [] hm' (List.nil_sublist _))
      | cons f fs =>
        rcases List.sublist_cons_iff.mp h with h | ⟨r, hr', h⟩
        · exact .skip (Laid.of_sublist m xs (n + 1) _ hm' (htail ▸ h))
        · obtain ⟨rfl, rfl⟩ := List.cons.inj hr'
          rw [← hr]
          exact .frame hf (Laid.of_sublist m rest _ _ (by omega) h)

theorem Laid.contents {n : Nat} {l : List ι} {fs : List (Frame ι κ)} (h : Laid G n l fs) :
    fs.map (fun f => (f.key, f.seg)) <+ contents G l := by
  induction h with
  | nil n => exact List.nil_sublist _
  | skip _ ih => exact ih.trans (contents_cons G _ _)
  | frame hf _ ih =>
    rw [contents_frame_append G hf, List.map_cons]
    exact ih.cons_cons _

theorem Laid.start_le {n : Nat} {l : List ι} {fs : List (Frame ι κ)} (h : Laid G n l fs) :
    ∀ f ∈ fs, n ≤ f.start := by
  induction h with
  | nil n => simp
  | skip _ ih => intro f hf; have := ih f hf; omega
  | frame hk _ ih =>
    intro f hf
    rcases List.mem_cons.mp hf with rfl | hf
    · exact Nat.le_refl _
    · have := ih f hf; omega

/-- The collection keeps exactly the indices of the given frames. -/
def KeepsFrames (keep : Nat → Bool) (n m : Nat) (fs : List (Frame ι κ)) : Prop :=
  ∀ i, n ≤ i → i < m → (keep i = true ↔ ∃ f ∈ fs, f.start ≤ i ∧ i < f.start + f.seg.length)

section Kept
variable {keep : Nat → Bool} {n : Nat} {l : List ι} {fs : List (Frame ι κ)}

theorem KeepsFrames.skip {x : ι} (hk : KeepsFrames keep n (n + (x :: l).length) fs)
    (hl : Laid G (n + 1) l fs) :
    keep n = false ∧ KeepsFrames keep (n + 1) (n + 1 + l.length) fs := by
  constructor
  · by_contra hn
    obtain ⟨f, hf, hs, _⟩ := (hk n (Nat.le_refl _) (by simp)).mp (by simpa using hn)
    have := hl.start_le G f hf
    omega
  · intro i hi hm
    exact hk i (by omega) (by simp; omega)

theorem KeepsFrames.frame {k : κ} {seg : List ι}
    (hk : KeepsFrames keep n (n + (seg ++ l).length) (⟨k, n, seg⟩ :: fs)) :
    (∀ i, n ≤ i → i < n + seg.length → keep i = true) ∧
      KeepsFrames keep (n + seg.length) (n + seg.length + l.length) fs := by
  constructor
  · intro i hi hm
    exact (hk i hi (by simp; omega)).mpr ⟨_, List.mem_cons_self, hi, hm⟩
  · intro i hi hm
    rw [hk i (by omega) (by simp; omega)]
    constructor
    · intro hx
      obtain ⟨f, hf, hs, he⟩ := hx
      rcases List.mem_cons.mp hf with rfl | hf
      · simp only at he; omega
      · exact ⟨f, hf, hs, he⟩
    · intro hx
      obtain ⟨f, hf, h⟩ := hx
      exact ⟨f, List.mem_cons_of_mem _ hf, h⟩

/-- A finished collection leaves the kept frames and nothing else. -/
theorem Laid.survive (h : Laid G n l fs) (hk : KeepsFrames keep n (n + l.length) fs) :
    Framing.survive keep n l = (fs.map Frame.seg).flatten := by
  induction h with
  | nil n => rfl
  | skip hl ih =>
    obtain ⟨hn, hk⟩ := hk.skip G hl
    rw [Framing.survive, if_neg (by simp [hn]), ih hk]
  | @frame n k seg l fs hf hl ih =>
    obtain ⟨ha, hk⟩ := hk.frame
    rw [survive_append, survive_all keep seg n ha, ih hk, List.map_cons, List.flatten_cons]

/-- A collection that keeps the frames, and of what is between them only items
that open, leaves no other frame. -/
theorem Laid.contents_survive (h : Laid G n l fs)
    (hk : ∀ f ∈ fs, ∀ i, f.start ≤ i → i < f.start + f.seg.length → keep i = true)
    (ho : ∀ i x, l[i]? = some x → keep (n + i) = true →
      (∃ f ∈ fs, f.start ≤ n + i ∧ n + i < f.start + f.seg.length) ∨ G.opens x ≠ none) :
    Framing.contents G (Framing.survive keep n l) = fs.map (fun f => (f.key, f.seg)) ∧
      ∀ y ∈ (Framing.survive keep n l).head?, G.opens y ≠ none := by
  induction h with
  | nil n => exact ⟨rfl, nofun⟩
  | @skip n x l fs hl ih =>
    have hrec := ih hk fun i y hy hkeep => by
      have hyx : (x :: l)[i + 1]? = some y := hy
      rw [show n + 1 + i = n + (i + 1) by omega] at hkeep ⊢
      exact ho (i + 1) y hyx hkeep
    rw [Framing.survive]
    cases hn : keep n with
    | false =>
      rw [if_neg (by simp)]
      exact hrec
    | true =>
      rw [if_pos rfl, contents_lone G hrec.2]
      refine ⟨hrec.1, fun y hy => ?_⟩
      obtain rfl := Option.some.inj hy
      refine (ho 0 x rfl hn).resolve_left ?_
      intro hx
      obtain ⟨f, hf, hs, _⟩ := hx
      have := hl.start_le G f hf
      omega
  | @frame n k seg l fs hf hl ih =>
    have hall : ∀ i, n ≤ i → i < n + seg.length → keep i = true := fun i hi hlt =>
      hk ⟨k, n, seg⟩ List.mem_cons_self i hi hlt
    have hrec := ih (fun f hf => hk f (List.mem_cons_of_mem _ hf)) fun i y hy hkeep => by
      have hyx : (seg ++ l)[seg.length + i]? = some y := by
        rw [List.getElem?_append_right (by omega), Nat.add_sub_cancel_left]
        exact hy
      rw [Nat.add_assoc] at hkeep ⊢
      refine (ho (seg.length + i) y hyx hkeep).imp_left ?_
      intro hx
      obtain ⟨f, hmem, hs, he⟩ := hx
      rcases List.mem_cons.mp hmem with rfl | hmem
      · simp only at he
        omega
      · exact ⟨f, hmem, hs, he⟩
    rw [survive_append, survive_all keep seg n hall, contents_frame_append G hf, hrec.1]
    refine ⟨rfl, fun y hy => ?_⟩
    obtain ⟨o, bs, c, rfl, hopen, _⟩ := hf
    obtain rfl := Option.some.inj hy
    rw [hopen]
    exact nofun

/-- **No stopping point of a collection makes a new frame or loses a kept one**:
the frames of what is left are among those of the log, and the kept ones are
among them. -/
theorem Laid.contents_collect (h : Laid G n l fs) (hk : KeepsFrames keep n (n + l.length) fs) :
    ∀ p, Framing.contents G (collect keep n p l) <+ Framing.contents G l ∧
      fs.map (fun f => (f.key, f.seg)) <+ Framing.contents G (collect keep n p l) := by
  induction h with
  | nil n => intro p; simp [collect, Framing.survive]
  | @skip n x l fs hl ih =>
    intro p
    cases p with
    | zero => simpa using (Laid.skip (x := x) hl).contents
    | succ p =>
      obtain ⟨hn, hk⟩ := hk.skip G hl
      rw [collect_succ_cons, if_neg (by simp [hn])]
      exact ⟨(ih hk p).1.trans (contents_cons G x l), (ih hk p).2⟩
  | @frame n k seg l fs hf hl ih =>
    intro p
    obtain ⟨ha, hk⟩ := hk.frame
    rcases Nat.le_total p seg.length with hp | hp
    · have heq : collect keep n p (seg ++ l) = seg ++ l := by
        rw [collect_append_left keep l n p seg hp, collect, survive_all keep (seg.take p) n,
          List.take_append_drop]
        intro i hi hl
        rw [List.length_take] at hl
        exact ha i hi (by omega)
      rw [heq]
      exact ⟨List.Sublist.refl _, (Laid.frame hf hl).contents⟩
    · obtain ⟨q, rfl⟩ := Nat.exists_eq_add_of_le hp
      rw [collect_append_right, survive_all keep seg n ha, contents_frame_append G hf,
        contents_frame_append G hf, List.map_cons]
      exact ⟨(ih hk q).1.cons_cons _, (ih hk q).2.cons_cons _⟩

end Kept

end Framing

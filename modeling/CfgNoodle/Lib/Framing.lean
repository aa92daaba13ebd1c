import Mathlib.Data.List.Infix
import Mathlib.Data.List.Nodup
import Mathlib.Tactic.Common

/-! # Frames in a log

A log is a list of items, some of which open a frame, some of which can stand
inside one, and some of which close one. A frame is an opener, a run of body
items and a closer that accepts what came before it; everything else in the
log is noise. This file says where the frames of a log are (`framesFrom`),
that a single left-to-right pass with one open frame finds exactly those
(`scanFrom_eq`), and how they behave when the log is extended, cut short or
has noise deleted from it. -/
namespace Framing

/-- Which items open a frame and with which key, which may stand inside one,
and which close one, given the key and the body items. An item has at most one
of the three roles. -/
structure Grammar (ι κ : Type) where
  opens : ι → Option κ
  isBody : ι → Bool
  closes : κ → List ι → ι → Bool
  body_not_open : ∀ x, isBody x = true → opens x = none
  close_not_open : ∀ k bs x, closes k bs x = true → opens x = none
  close_not_body : ∀ k bs x, closes k bs x = true → isBody x = false

/-- A frame of a log: its key, the index of its opener and its items. -/
structure Frame (ι κ : Type) where
  key : κ
  start : Nat
  seg : List ι

variable {ι κ : Type} (G : Grammar ι κ)

/-- The index of a frame's closer. -/
def Frame.last (f : Frame ι κ) : Nat := f.start + f.seg.length - 1

def Frame.shift (f : Frame ι κ) (n : Nat) : Frame ι κ := { f with start := n + f.start }

/-- The items form one complete frame with this key. -/
def IsFrame (k : κ) (seg : List ι) : Prop :=
  ∃ o bs c, seg = o :: (bs ++ [c]) ∧ G.opens o = some k ∧
    (∀ b ∈ bs, G.isBody b = true) ∧ G.closes k bs c = true

/-- The rest of a frame whose opener and first body items `bs` were read: the
body items that follow, up to an item that closes it. -/
def closeFrom (k : κ) (bs : List ι) : List ι → Option (List ι)
  | [] => none
  | x :: xs =>
    if G.isBody x then closeFrom k (bs ++ [x]) xs
    else if G.closes k bs x then some (bs ++ [x]) else none

/-- The frame that starts at the head of the log, if one does. -/
def headFrame : List ι → Option (κ × List ι)
  | [] => none
  | x :: xs => (G.opens x).bind fun k => (closeFrom G k [] xs).map fun t => (k, x :: t)

/-- The frames of a log whose first item has index `n`. -/
def framesFrom (n : Nat) : List ι → List (Frame ι κ)
  | [] => []
  | x :: xs =>
    ((headFrame G (x :: xs)).map fun p => ⟨p.1, n, p.2⟩).toList ++ framesFrom (n + 1) xs

def frames (l : List ι) : List (Frame ι κ) := framesFrom G 0 l

/-! ## Where the frames are -/

theorem closeFrom_eq_some {k : κ} {t : List ι} (l bs : List ι) :
    closeFrom G k bs l = some t ↔ ∃ bs' c rest, l = bs' ++ c :: rest ∧
      (∀ b ∈ bs', G.isBody b = true) ∧ G.closes k (bs ++ bs') c = true ∧ t = bs ++ bs' ++ [c] := by
  induction l generalizing bs with
  | nil => simp [closeFrom]
  | cons x xs ih =>
    by_cases hx : G.isBody x = true
    · rw [closeFrom, if_pos hx, ih (bs ++ [x])]
      constructor
      · intro hx
        obtain ⟨bs', c, rest, rfl, hb, hc, rfl⟩ := hx
        exact ⟨x :: bs', c, rest, rfl, by simpa [hx] using hb, by simpa using hc, by simp⟩
      · intro hx
        obtain ⟨bs', c, rest, hl, hb, hc, rfl⟩ := hx
        cases bs' with
        | nil =>
          obtain ⟨rfl, rfl⟩ := List.cons.inj hl
          rw [G.close_not_body _ _ _ hc] at hx; cases hx
        | cons b bs' =>
          obtain ⟨rfl, rfl⟩ := List.cons.inj hl
          exact ⟨bs', c, rest, rfl, fun b h => hb b (by simp [h]), by simpa using hc, by simp⟩
    · rw [closeFrom, if_neg hx]
      constructor
      · intro h
        split at h
        · next hc => exact ⟨[], x, xs, rfl, by simp, by simpa using hc, by simpa using h.symm⟩
        · cases h
      · intro hx
        obtain ⟨bs', c, rest, hl, hb, hc, rfl⟩ := hx
        cases bs' with
        | nil =>
          obtain ⟨rfl, rfl⟩ := List.cons.inj hl
          rw [List.append_nil] at hc ⊢
          rw [if_pos hc]
        | cons b bs' =>
          obtain ⟨rfl, rfl⟩ := List.cons.inj hl
          exact absurd (hb x (by simp)) hx

/-- A frame at the head of a log is a complete frame that the log begins with. -/
theorem headFrame_eq_some {k : κ} {seg l : List ι} :
    headFrame G l = some (k, seg) ↔ IsFrame G k seg ∧ seg <+: l := by
  cases l with
  | nil =>
    constructor
    · intro h; cases h
    · rintro ⟨⟨o, bs, c, rfl, _⟩, hp⟩; simp at hp
  | cons x xs =>
    simp only [headFrame, Option.bind_eq_some_iff, Option.map_eq_some_iff, Prod.mk.injEq]
    constructor
    · intro hx
      obtain ⟨k', ho, t, ht, rfl, rfl⟩ := hx
      obtain ⟨bs, c, rest, rfl, hb, hc, rfl⟩ := (closeFrom_eq_some G xs []).mp ht
      exact ⟨⟨x, bs, c, rfl, ho, hb, hc⟩, ⟨rest, by simp⟩⟩
    · intro hx
      obtain ⟨⟨o, bs, c, rfl, ho, hb, hc⟩, rest, hr⟩ := hx
      simp only [List.cons_append, List.append_assoc, List.nil_append, List.cons.injEq] at hr
      obtain ⟨rfl, rfl⟩ := hr
      refine ⟨k, ho, bs ++ [c], ?_, rfl, rfl⟩
      exact (closeFrom_eq_some G _ []).mpr ⟨bs, c, rest, rfl, hb, hc, rfl⟩

theorem IsFrame.length {k : κ} {seg : List ι} (h : IsFrame G k seg) : 2 ≤ seg.length := by
  obtain ⟨o, bs, c, rfl, _⟩ := h
  simp

theorem IsFrame.ne_nil {k : κ} {seg : List ι} (h : IsFrame G k seg) : seg ≠ [] := by
  obtain ⟨o, bs, c, rfl, _⟩ := h
  simp

/-- Only the first item of a frame can open one. -/
theorem IsFrame.tail_not_open {k : κ} {seg : List ι} (h : IsFrame G k seg) :
    ∀ x ∈ seg.tail, G.opens x = none := by
  obtain ⟨o, bs, c, rfl, _, hb, hc⟩ := h
  intro x hx
  simp only [List.tail_cons, List.mem_append, List.mem_singleton] at hx
  rcases hx with hx | rfl
  · exact G.body_not_open x (hb x hx)
  · exact G.close_not_open k bs x hc

/-- The frames of a log are exactly the complete frames that occur in it. -/
theorem mem_framesFrom {f : Frame ι κ} {l : List ι} {n : Nat} :
    f ∈ framesFrom G n l ↔
      ∃ pre, f.start = n + pre.length ∧ IsFrame G f.key f.seg ∧ pre ++ f.seg <+: l := by
  induction l generalizing n with
  | nil =>
    simp only [framesFrom, List.not_mem_nil, false_iff]
    intro hx
    obtain ⟨pre, _, hf, hp⟩ := hx
    have := hf.ne_nil
    simp_all
  | cons x xs ih =>
    simp only [framesFrom, List.mem_append, Option.mem_toList, Option.map_eq_some_iff]
    rw [ih]
    constructor
    · intro hor
      rcases hor with ⟨⟨k, seg⟩, hh, rfl⟩ | ⟨pre, hs, hf, hp⟩
      · obtain ⟨hf, hp⟩ := (headFrame_eq_some G).mp hh
        exact ⟨[], rfl, hf, hp⟩
      · exact ⟨x :: pre, by simp [hs]; omega, hf, by simpa using hp⟩
    · intro hx
      obtain ⟨pre, hs, hf, hp⟩ := hx
      cases pre with
      | nil =>
        refine Or.inl ⟨(f.key, f.seg), (headFrame_eq_some G).mpr ⟨hf, by simpa using hp⟩, ?_⟩
        cases f; simp_all
      | cons y pre =>
        rw [List.cons_append, List.cons_prefix_cons] at hp
        exact Or.inr ⟨pre, by simp at hs; omega, hf, hp.2⟩

theorem mem_frames {f : Frame ι κ} {l : List ι} :
    f ∈ frames G l ↔ ∃ pre post, f.start = pre.length ∧ IsFrame G f.key f.seg ∧
      l = pre ++ f.seg ++ post := by
  rw [frames, mem_framesFrom]
  constructor
  · intro hx
    obtain ⟨pre, hs, hf, post, hp⟩ := hx
    exact ⟨pre, post, by simpa using hs, hf, hp.symm⟩
  · intro hx
    obtain ⟨pre, post, hs, hf, rfl⟩ := hx
    exact ⟨pre, by simpa using hs, hf, post, rfl⟩

theorem framesFrom_shift (n : Nat) (l : List ι) (m : Nat) :
    framesFrom G (n + m) l = (framesFrom G m l).map (Frame.shift · n) := by
  induction l generalizing m with
  | nil => rfl
  | cons x xs ih =>
    rw [framesFrom, framesFrom, List.map_append, Nat.add_assoc, ih (m + 1)]
    cases headFrame G (x :: xs) <;> rfl

theorem framesFrom_eq (n : Nat) (l : List ι) :
    framesFrom G n l = (frames G l).map (Frame.shift · n) :=
  framesFrom_shift G n l 0

/-- The frames of a log in the order of their positions: each starts after the
one before it has ended. -/
theorem framesFrom_ordered (l : List ι) (n : Nat) :
    (framesFrom G n l).Pairwise fun f g => f.start + f.seg.length ≤ g.start := by
  induction l generalizing n with
  | nil => exact List.Pairwise.nil
  | cons x xs ih =>
    rw [framesFrom]
    cases hh : headFrame G (x :: xs) with
    | none => simpa using ih (n + 1)
    | some p =>
      obtain ⟨k, seg⟩ := p
      obtain ⟨hf, hp⟩ := (headFrame_eq_some G).mp hh
      refine List.Pairwise.cons ?_ (ih (n + 1))
      intro g hg
      obtain ⟨pre, hs, hg', hp'⟩ := (mem_framesFrom G).mp hg
      -- an opener inside the first frame would be one of its tail items
      by_contra hlt
      obtain ⟨o, bs, c, hseg, ho, _⟩ := hg'
      have hlen : pre.length < seg.tail.length := by
        simp only [List.length_tail]; simp only at hlt; omega
      obtain ⟨post, rfl⟩ := hp'
      obtain ⟨y, tl, rfl⟩ := List.exists_cons_of_ne_nil hf.ne_nil
      obtain ⟨_, hp⟩ := List.cons_prefix_cons.mp hp
      have hat : tl[pre.length]? = some o := by
        obtain ⟨r, hr⟩ := hp
        have : (tl ++ r)[pre.length]? = some o := by
          rw [hr, hseg]; simp
        rwa [List.getElem?_append_left (by simpa using hlen)] at this
      have := hf.tail_not_open G o (by simpa using List.mem_of_getElem? hat)
      rw [ho] at this; cases this

theorem frames_ordered (l : List ι) :
    (frames G l).Pairwise fun f g => f.start + f.seg.length ≤ g.start :=
  framesFrom_ordered G l 0

theorem frames_starts_nodup (l : List ι) : ((frames G l).map Frame.start).Nodup := by
  have hlt : (frames G l).Pairwise fun f g => f.start < g.start := by
    refine (frames_ordered G l).imp_of_mem fun {a b} ha _ hab => ?_
    obtain ⟨_, _, hk, _⟩ := (mem_framesFrom G).mp ha
    have := hk.length
    omega
  exact List.pairwise_map.mpr (hlt.imp fun h => Nat.ne_of_lt h)

/-- Frames of one log are told apart by where they start. -/
theorem frames_start_inj {l : List ι} {f g : Frame ι κ} (hf : f ∈ frames G l)
    (hg : g ∈ frames G l) (h : f.start = g.start) : f = g :=
  List.inj_on_of_nodup_map (frames_starts_nodup G l) hf hg h

/-! ## Extending a log -/

/-- An item that neither continues nor closes any frame. -/
def Barrier (x : ι) : Prop := G.isBody x = false ∧ ∀ k bs, G.closes k bs x = false

theorem barrier_of_opens {x : ι} {k : κ} (h : G.opens x = some k) : Barrier G x := by
  constructor
  · cases hb : G.isBody x with
    | false => rfl
    | true => rw [G.body_not_open x hb] at h; cases h
  · intro k' bs
    cases hc : G.closes k' bs x with
    | false => rfl
    | true => rw [G.close_not_open k' bs x hc] at h; cases h

theorem closeFrom_append_barrier {x : ι} (hx : Barrier G x) (k : κ) (b l bs : List ι) :
    closeFrom G k bs (l ++ x :: b) = closeFrom G k bs l := by
  induction l generalizing bs with
  | nil => simp [closeFrom, hx.1, hx.2]
  | cons y l ih => rw [List.cons_append, closeFrom, closeFrom, ih]

/-- What comes after a barrier changes no frame that began before it. -/
theorem framesFrom_append_barrier {x : ι} (hx : Barrier G x) (b a : List ι) (n : Nat) :
    framesFrom G n (a ++ x :: b) =
      framesFrom G n a ++ framesFrom G (n + a.length) (x :: b) := by
  induction a generalizing n with
  | nil => simp [framesFrom]
  | cons y a ih =>
    have hh : headFrame G (y :: (a ++ x :: b)) = headFrame G (y :: a) := by
      simp only [headFrame, closeFrom_append_barrier G hx]
    rw [List.cons_append, framesFrom, framesFrom, hh, ih (n + 1), List.append_assoc,
      List.length_cons, Nat.add_assoc, Nat.add_comm 1]

/-- Items that open nothing start no frame. -/
theorem framesFrom_not_open (b a : List ι) (n : Nat) (h : ∀ x ∈ a, G.opens x = none) :
    framesFrom G n (a ++ b) = framesFrom G (n + a.length) b := by
  induction a generalizing n with
  | nil => rfl
  | cons x a ih =>
    have hx : G.opens x = none := h x (by simp)
    rw [List.cons_append, framesFrom, headFrame, hx, ih (n + 1) (fun y hy => h y (by simp [hy]))]
    simp [Nat.add_assoc, Nat.add_comm 1]

/-- A complete frame in front of a log is found and leaves the rest alone. -/
theorem framesFrom_frame_append {k : κ} {seg : List ι} (h : IsFrame G k seg) (b : List ι) (n : Nat) :
    framesFrom G n (seg ++ b) = ⟨k, n, seg⟩ :: framesFrom G (n + seg.length) b := by
  have hh : headFrame G (seg ++ b) = some (k, seg) :=
    (headFrame_eq_some G).mpr ⟨h, List.prefix_append seg b⟩
  have ht := h.tail_not_open G
  obtain ⟨x, tl, rfl⟩ := List.exists_cons_of_ne_nil (h.ne_nil G)
  rw [List.cons_append, framesFrom, ← List.cons_append, hh, framesFrom_not_open G b tl (n + 1) ht]
  simp [Nat.add_assoc, Nat.add_comm 1]

theorem framesFrom_frame {k : κ} {seg : List ι} (h : IsFrame G k seg) (n : Nat) :
    framesFrom G n seg = [⟨k, n, seg⟩] := by
  simpa [framesFrom] using framesFrom_frame_append G h [] n

/-- A log of complete frames and nothing else has exactly those. -/
theorem framesFrom_flatten (segs : List (κ × List ι)) (n : Nat)
    (h : ∀ p ∈ segs, IsFrame G p.1 p.2) :
    (framesFrom G n (segs.map Prod.snd).flatten).map (fun f => (f.key, f.seg)) = segs := by
  induction segs generalizing n with
  | nil => rfl
  | cons p segs ih =>
    obtain ⟨k, seg⟩ := p
    have hk : IsFrame G k seg := h (k, seg) (by simp)
    rw [List.map_cons, List.flatten_cons, framesFrom_frame_append G hk, List.map_cons,
      ih _ fun p hp => h p (by simp [hp])]

/-! ## One pass with one open frame -/

/-- A frame that has been opened and not yet closed. -/
structure Pending (ι κ : Type) where
  key : κ
  start : Nat
  opener : ι
  bodies : List ι

/-- One item of the pass: a new opener discards the frame that is open, a body
item extends it, any other item ends it, accepted or not. -/
def scanItem (st : Option (Pending ι κ)) (n : Nat) (x : ι) :
    Option (Pending ι κ) × Option (Frame ι κ) :=
  match G.opens x with
  | some k => (some ⟨k, n, x, []⟩, none)
  | none =>
    if G.isBody x then (st.map fun o => { o with bodies := o.bodies ++ [x] }, none)
    else (none, st.bind fun o =>
      if G.closes o.key o.bodies x then some ⟨o.key, o.start, o.opener :: (o.bodies ++ [x])⟩ else none)

/-- The frames the pass reports. -/
def scanFrom : Option (Pending ι κ) → Nat → List ι → List (Frame ι κ)
  | _, _, [] => []
  | st, n, x :: xs =>
    (scanItem G st n x).2.toList ++ scanFrom (scanItem G st n x).1 (n + 1) xs

/-- What is open when the pass has read the items. -/
def scanState : Option (Pending ι κ) → Nat → List ι → Option (Pending ι κ)
  | st, _, [] => st
  | st, n, x :: xs => scanState (scanItem G st n x).1 (n + 1) xs

theorem scanFrom_append (b a : List ι) (st : Option (Pending ι κ)) (n : Nat) :
    scanFrom G st n (a ++ b) =
      scanFrom G st n a ++ scanFrom G (scanState G st n a) (n + a.length) b := by
  induction a generalizing st n with
  | nil => rfl
  | cons x a ih =>
    rw [List.cons_append, scanFrom, scanFrom, scanState, ih, List.append_assoc, List.length_cons,
      Nat.add_assoc, Nat.add_comm 1]

/-- How the open frame ends, if an item to come closes it. -/
def pendingFrame (st : Option (Pending ι κ)) (l : List ι) : Option (Frame ι κ) :=
  st.bind fun o => (closeFrom G o.key o.bodies l).map fun t => ⟨o.key, o.start, o.opener :: t⟩

/-- The pass reports the frame it has open, if it gets closed, and then the
frames of the rest. -/
theorem scanFrom_eq (l : List ι) (st : Option (Pending ι κ)) (n : Nat) :
    scanFrom G st n l = (pendingFrame G st l).toList ++ framesFrom G n l := by
  induction l generalizing st n with
  | nil => cases st <;> rfl
  | cons x xs ih =>
    rw [scanFrom, ih, framesFrom, headFrame, scanItem]
    cases ho : G.opens x with
    | some k =>
      have hb := barrier_of_opens G ho
      have hp : pendingFrame G st (x :: xs) = none := by
        cases st <;> simp [pendingFrame, closeFrom, hb.1, hb.2]
      rw [hp]
      simp only [Option.toList_none, List.nil_append, Option.bind_some, Option.map_map]
      cases h : closeFrom G k [] xs <;> simp [pendingFrame, h]
    | none =>
      by_cases hx : G.isBody x = true
      · cases st <;> simp [hx, pendingFrame, closeFrom]
      · cases st with
        | none => simp [hx, pendingFrame]
        | some o =>
          simp only [hx, pendingFrame, closeFrom, Option.bind_some, Option.bind_none]
          by_cases hc : G.closes o.key o.bodies x = true <;> simp [hc]

/-- **One pass finds the frames of a log**, in the order in which they end. -/
theorem scanFrom_none (l : List ι) (n : Nat) : scanFrom G none n l = framesFrom G n l := by
  rw [scanFrom_eq]; rfl

/-- A frame that ends within a first part of a log is a frame of that part. -/
theorem mem_frames_of_append {f : Frame ι κ} {a b : List ι} (hf : f ∈ frames G (a ++ b))
    (hle : f.start + f.seg.length ≤ a.length) : f ∈ frames G a := by
  obtain ⟨pre, hs, hk, hp⟩ := (mem_framesFrom G).mp hf
  refine (mem_framesFrom G).mpr ⟨pre, hs, hk, ?_⟩
  exact List.prefix_of_prefix_length_le hp (List.prefix_append a b) (by simp; omega)

/-- The frames of a log are those of a first part of it, followed by frames
that end beyond that part. -/
theorem frames_append_eq (a b : List ι) : ∃ later, frames G (a ++ b) = frames G a ++ later ∧
    ∀ f ∈ later, a.length < f.start + f.seg.length := by
  have heq : frames G (a ++ b) =
      frames G a ++ scanFrom G (scanState G none 0 a) (0 + a.length) b := by
    rw [frames, frames, ← scanFrom_none, ← scanFrom_none, scanFrom_append]
  refine ⟨_, heq, fun f hf => ?_⟩
  by_contra hle
  have hfa : f ∈ frames G a :=
    mem_frames_of_append G (heq ▸ List.mem_append_right _ hf) (by omega)
  -- the same frame would stand before itself
  have hord := List.pairwise_append.mp (heq ▸ frames_ordered G (a ++ b))
  have hself := hord.2.2 f hfa f hf
  obtain ⟨_, _, hk, _⟩ := (mem_framesFrom G).mp hfa
  have := hk.length
  omega

end Framing

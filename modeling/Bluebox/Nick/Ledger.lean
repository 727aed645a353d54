/-
  Bluebox.Nick.Ledger

  Nick agreement without strings: every user has a home, the home claims nicks
  for it and may save it, and the other side hears of this over a FIFO link.
  A side that hears a claim to a nick it has given to one of its own users
  settles the collision by itself and tells the home of a user it saved.

  A claim is named by its user and its time stamp.  When no user claims twice
  with one stamp, a save that comes back to the home of its user never finds
  the claim it is about still standing: the home has met the same collision
  before, since the claim that won was ahead of the save on the link.  This is
  `SaveOk`, and everything else in the invariant is there to support it.
-/
import Mathlib.Logic.Function.Basic
import Bluebox.Lib.Fifo

namespace Bluebox.Nick

open Bluebox.Lib

-- ============================================================================
-- Two sides and what they say
-- ============================================================================

/-- The two servers. -/
inductive Side
  | a
  | b
deriving DecidableEq, Repr

/-- The peer. -/
def Side.other : Side → Side
  | .a => .b
  | .b => .a

@[simp] theorem Side.other_other (x : Side) : x.other.other = x := by
  cases x <;> rfl

@[simp] theorem Side.other_ne (x : Side) : x.other ≠ x := by
  cases x <;> exact fun h => by cases h

theorem Side.eq_other_of_ne {x y : Side} (h : x ≠ y) : x = y.other := by
  cases x <;> cases y <;> first | rfl | exact absurd rfl h

/-- What a side has for a user: a nick since some time, or the nick was taken
    away. -/
inductive Holding (N T : Type)
  | saved
  | named (n : N) (t : T)

/-- What is said on a link.  The first claim of a user is marked. -/
inductive Word (U N T : Type)
  | claim (new : Bool) (u : U) (n : N) (t : T)
  | save (u : U) (t : T)

/-- The user a word is about. -/
def Word.subject {U N T : Type} : Word U N T → U
  | .claim _ u _ _ => u
  | .save u _ => u

/-- The claim a word is about. -/
def Word.stamp {U N T : Type} : Word U N T → T
  | .claim _ _ _ t => t
  | .save _ t => t

/-- Who loses a nick when two claims to it meet. -/
inductive Loser
  | both
  | first
  | second
deriving DecidableEq, Repr

/-- The same collision seen from the other side. -/
def Loser.swap : Loser → Loser
  | .both => .both
  | .first => .second
  | .second => .first

/-- Homes, when two nicks are the same, and how collisions are settled: alike on
    both sides. -/
structure Rules (U N T C : Type) where
  home : U → Side
  fold : N → C
  loser : U → T → U → T → Loser
  loser_swap : ∀ u t w t', loser w t' u t = (loser u t w t').swap

/-- The state: what the home of a user has for it, what the other side has heard
    of this, and what it made of it; the links, by sender; and the stamps a user
    has claimed with. -/
structure Ledger (U N T : Type) where
  cur : U → Option (Holding N T)
  told : U → Option (Holding N T)
  seen : U → Option (Holding N T)
  link : Side → List (Word U N T)
  past : U → List T

section Ledger

variable {U N T C : Type} (R : Rules U N T C)

/-- What a side has for a user. -/
def Ledger.view (L : Ledger U N T) (x : Side) (u : U) : Option (Holding N T) :=
  if R.home u = x then L.cur u else L.seen u

/-- The claim with a stamp stands. -/
def Ledger.Live (L : Ledger U N T) (u : U) (t : T) : Prop := ∃ n, L.cur u = some (.named n t)

/-- No two users have the same nick. -/
def Apart (f : U → Option (Holding N T)) : Prop :=
  ∀ u v n t n' t', f u = some (.named n t) → f v = some (.named n' t') → R.fold n = R.fold n' → u = v

theorem Ledger.view_home (L : Ledger U N T) {x : Side} {u : U} (hu : R.home u = x) :
    L.view R x u = L.cur u := if_pos hu

theorem Ledger.view_away (L : Ledger U N T) {x : Side} {u : U} (hu : R.home u ≠ x) :
    L.view R x u = L.seen u := if_neg hu

variable {R} in
theorem Apart.mono {f g : U → Option (Holding N T)} (hf : Apart R f)
    (hg : ∀ v n t, g v = some (.named n t) → f v = some (.named n t)) : Apart R g :=
  fun u v n t n' t' hu hv => hf u v n t n' t' (hg u n t hu) (hg v n' t' hv)

variable {R} in
/-- One user may get a nick that no other has. -/
theorem Apart.set {f g : U → Option (Holding N T)} (hf : Apart R f) {u : U} {n : N} {t : T}
    (hu : g u = some (.named n t)) (hg : ∀ v, v ≠ u → g v = f v)
    (hother : ∀ v, v ≠ u → ∀ n' t', f v = some (.named n' t') → R.fold n' ≠ R.fold n) :
    Apart R g := by
  intro v w n₁ t₁ n₂ t₂ hn₁ hn₂ hfold
  by_cases hv : v = u
  · by_cases hw : w = u
    · rw [hv, hw]
    · rw [hv, hu] at hn₁
      cases hn₁
      exact absurd hfold.symm (hother w hw n₂ t₂ ((hg w hw).symm.trans hn₂))
  · by_cases hw : w = u
    · rw [hw, hu] at hn₂
      cases hn₂
      exact absurd hfold (hother v hv n₁ t₁ ((hg v hv).symm.trans hn₁))
    · exact hf v w n₁ t₁ n₂ t₂ ((hg v hv).symm.trans hn₁) ((hg w hw).symm.trans hn₂) hfold

-- ============================================================================
-- One link
-- ============================================================================

/-- What a home says when it has `f` for its users: it marks first claims, keeps
    the stamp when a nick only changes in case, and saves the standing claim. -/
def Legal (x : Side) (f : U → Option (Holding N T)) : Word U N T → Prop
  | .claim new u n t => R.home u = x ∧ (new = true ↔ f u = none) ∧
    ∀ n₀ t₀, f u = some (.named n₀ t₀) → R.fold n₀ = R.fold n → t₀ = t
  | .save u t => R.home u = x → ∃ n, f u = some (.named n t)

theorem Legal.congr {x : Side} {f g : U → Option (Holding N T)} {m : Word U N T}
    (h : Legal R x f m) (hfg : ∀ u, R.home u = x → f u = g u) : Legal R x g m := by
  cases m with
  | claim new u n t =>
    obtain ⟨hx, hrest⟩ := h
    rw [hfg u hx] at hrest
    exact ⟨hx, hrest⟩
  | save u t =>
    intro hx
    rw [← hfg u hx]
    exact h hx

variable [DecidableEq U]

/-- What one word does to what was heard of a user. -/
def hear (u : U) (h : Option (Holding N T)) : Word U N T → Option (Holding N T)
  | .claim _ v n t => if v = u then some (.named n t) else h
  | .save v _ => if v = u then some .saved else h

theorem hear_of_ne {u : U} {h : Option (Holding N T)} {m : Word U N T} (hm : m.subject ≠ u) :
    hear u h m = h := by
  cases m with
  | claim _ v n t => exact if_neg hm
  | save v t => exact if_neg hm

@[simp] theorem hear_claim (new : Bool) (u : U) (n : N) (t : T) (h : Option (Holding N T)) :
    hear u h (.claim new u n t) = some (.named n t) := if_pos rfl

@[simp] theorem hear_save (u : U) (t : T) (h : Option (Holding N T)) :
    hear u h (.save u t) = some .saved := if_pos rfl

/-- The link from a home leads from what was told to what is so, and its users
    have different nicks all the way. -/
structure Stream (x : Side) (told cur : U → Option (Holding N T)) (l : List (Word U N T)) :
    Prop where
  reads : ∀ u, R.home u = x → l.foldl (hear u) (told u) = cur u
  apart : ∀ pre, pre <+: l → ∀ u v n t n' t', R.home u = x → R.home v = x →
    pre.foldl (hear u) (told u) = some (.named n t) →
    pre.foldl (hear v) (told v) = some (.named n' t') → R.fold n = R.fold n' → u = v
  legal : AtEach (fun pre m => Legal R x (fun u => pre.foldl (hear u) (told u)) m) l

/-- The claim of `n` with stamp `t` was heard or is under way, and on the link
    nothing but changes of case comes after it. -/
structure Tenure (u : U) (n : N) (t : T) (h : Option (Holding N T)) (l : List (Word U N T)) :
    Prop where
  announced : (∃ n₀, h = some (.named n₀ t)) ∨ ∃ new n', .claim new u n' t ∈ l
  told : ∀ n₀, h = some (.named n₀ t) → R.fold n₀ = R.fold n ∧
    ∀ m ∈ l, m.subject = u → ∃ new n', m = .claim new u n' t
  fold_eq : ∀ new n', .claim new u n' t ∈ l → R.fold n' = R.fold n
  only : AtEach (fun pre m => (∃ new n', .claim new u n' t ∈ pre) → m.subject = u →
    ∃ new n', m = .claim new u n' t) l

variable {R} {x : Side} {told cur : U → Option (Holding N T)} {l : List (Word U N T)}
  {m : Word U N T}

theorem Stream.congr (h : Stream R x told cur l) {told' cur' : U → Option (Holding N T)}
    (htold : ∀ u, R.home u = x → told' u = told u) (hcur : ∀ u, R.home u = x → cur' u = cur u) :
    Stream R x told' cur' l := by
  refine ⟨fun u hu => ?_, fun pre hpre u v n t n' t' hu hv => ?_, ?_⟩
  · rw [htold u hu, hcur u hu]
    exact h.reads u hu
  · rw [htold u hu, htold v hv]
    exact h.apart pre hpre u v n t n' t' hu hv
  · refine h.legal.mono fun pre m _ _ hm => hm.congr R fun u hu => ?_
    rw [htold u hu]

theorem Stream.pop (h : Stream R x told cur (m :: l)) :
    Stream R x (fun u => hear u (told u) m) cur l :=
  ⟨h.reads, fun pre hpre => h.apart (m :: pre) (List.cons_prefix_cons.mpr ⟨rfl, hpre⟩),
    h.legal.tail⟩

/-- What is said is so afterwards. -/
theorem Stream.snoc (h : Stream R x told cur l) (hm : Legal R x cur m)
    (hapart : ∀ u v n t n' t', R.home u = x → R.home v = x →
      hear u (cur u) m = some (.named n t) → hear v (cur v) m = some (.named n' t') →
      R.fold n = R.fold n' → u = v) :
    Stream R x told (fun u => hear u (cur u) m) (l ++ [m]) := by
  have hsnoc : ∀ u, R.home u = x → (l ++ [m]).foldl (hear u) (told u) = hear u (cur u) m := by
    intro u hu
    rw [List.foldl_append, h.reads u hu]
    rfl
  refine ⟨hsnoc, fun pre hpre u v n t n' t' hu hv => ?_, ?_⟩
  · rcases List.prefix_concat_iff.mp hpre with rfl | hpre
    · rw [hsnoc u hu, hsnoc v hv]
      exact hapart u v n t n' t' hu hv
    · exact h.apart pre hpre u v n t n' t' hu hv
  · exact h.legal.snoc (hm.congr R fun u hu => (h.reads u hu).symm)

variable {u : U} {n : N} {t : T} {h : Option (Holding N T)}

theorem Tenure.pop (ht : Tenure R u n t h (m :: l)) : Tenure R u n t (hear u h m) l := by
  by_cases hm : m.subject = u
  · have honly := ht.only.tail
    -- after a claim with another stamp, or a save, the tenure is still to come
    have hlater : (∀ n₀, h ≠ some (.named n₀ t)) → (∀ new n', m ≠ .claim new u n' t) →
        ∃ new n', .claim new u n' t ∈ l := by
      intro hh hclaim
      rcases ht.announced with ⟨n₀, hn₀⟩ | ⟨new, n', hmem⟩
      · exact absurd hn₀ (hh n₀)
      · rcases List.mem_cons.mp hmem with rfl | hmem
        · exact absurd rfl (hclaim new n')
        · exact ⟨new, n', hmem⟩
    have hfold : ∀ new n', .claim new u n' t ∈ l → R.fold n' = R.fold n := fun new n' hmem =>
      ht.fold_eq new n' (List.mem_cons_of_mem _ hmem)
    have hpre : AtEach (fun pre m => (∃ new n', .claim new u n' t ∈ pre) → m.subject = u →
        ∃ new n', m = .claim new u n' t) l :=
      honly.mono fun pre b _ _ hb hex => hb
        (hex.imp fun _ hex => hex.imp fun _ hmem => List.mem_cons_of_mem _ hmem)
    by_cases hc : ∃ new n', m = .claim new u n' t
    · obtain ⟨new, n', rfl⟩ := hc
      rw [hear_claim]
      refine ⟨Or.inl ⟨n', rfl⟩, fun n₀ hn₀ => ?_, hfold, hpre⟩
      cases hn₀
      refine ⟨ht.fold_eq new n' List.mem_cons_self, fun b hb hbu => ?_⟩
      obtain ⟨pre, -, hP⟩ := honly.of_mem hb
      exact hP ⟨new, n', List.mem_cons_self⟩ hbu
    · have hh : ∀ n₀, h ≠ some (.named n₀ t) := fun n₀ hn₀ =>
        hc ((ht.told n₀ hn₀).2 m List.mem_cons_self hm)
      obtain ⟨new, n', hmem⟩ := hlater hh fun new n' heq => hc ⟨new, n', heq⟩
      refine ⟨Or.inr ⟨new, n', hmem⟩, fun n₀ hn₀ => ?_, hfold, hpre⟩
      cases m with
      | claim new₁ v n₁ t₁ =>
        obtain rfl : v = u := hm
        rw [hear_claim] at hn₀
        cases hn₀
        exact absurd ⟨new₁, n₀, rfl⟩ hc
      | save v t₁ =>
        obtain rfl : v = u := hm
        rw [hear_save] at hn₀
        cases hn₀
  · rw [hear_of_ne hm]
    refine ⟨?_, fun n₀ hn₀ => ?_, fun new n' hmem => ?_, ?_⟩
    · refine ht.announced.imp_right fun hex => ?_
      obtain ⟨new, n', hmem⟩ := hex
      rcases List.mem_cons.mp hmem with rfl | hmem
      · exact absurd rfl hm
      · exact ⟨new, n', hmem⟩
    · obtain ⟨hfold, hall⟩ := ht.told n₀ hn₀
      exact ⟨hfold, fun b hb => hall b (List.mem_cons_of_mem _ hb)⟩
    · exact ht.fold_eq new n' (List.mem_cons_of_mem _ hmem)
    · exact ht.only.tail.mono fun pre b _ _ hb hex => hb
        (hex.imp fun _ hex => hex.imp fun _ hmem => List.mem_cons_of_mem _ hmem)

omit [DecidableEq U] in
theorem Tenure.snoc_of_ne (ht : Tenure R u n t h l) (hm : m.subject ≠ u) :
    Tenure R u n t h (l ++ [m]) := by
  refine ⟨ht.announced.imp_right ?_, fun n₀ hn₀ => ?_, fun new n' hmem => ?_,
    ht.only.snoc fun _ heq => absurd heq hm⟩
  · exact fun hex => hex.imp fun _ hex => hex.imp fun _ hmem => List.mem_append_left _ hmem
  · obtain ⟨hfold, hall⟩ := ht.told n₀ hn₀
    refine ⟨hfold, fun b hb hbu => ?_⟩
    rcases List.mem_append.mp hb with hb | hb
    · exact hall b hb hbu
    · rw [List.mem_singleton.mp hb] at hbu
      exact absurd hbu hm
  · rcases List.mem_append.mp hmem with hmem | hmem
    · exact ht.fold_eq new n' hmem
    · rw [← List.mem_singleton.mp hmem] at hm
      exact absurd rfl hm

omit [DecidableEq U] in
/-- A change of case goes on with the tenure. -/
theorem Tenure.snoc_case (ht : Tenure R u n t h l) (new : Bool) {n' : N}
    (hn : R.fold n' = R.fold n) : Tenure R u n' t h (l ++ [.claim new u n' t]) := by
  refine ⟨Or.inr ⟨new, n', by simp⟩, fun n₀ hn₀ => ?_, fun new₁ n₁ hmem => ?_, ?_⟩
  · obtain ⟨hfold, hall⟩ := ht.told n₀ hn₀
    refine ⟨hfold.trans hn.symm, fun b hb hbu => ?_⟩
    rcases List.mem_append.mp hb with hb | hb
    · exact hall b hb hbu
    · exact ⟨new, n', List.mem_singleton.mp hb⟩
  · rcases List.mem_append.mp hmem with hmem | hmem
    · exact (ht.fold_eq new₁ n₁ hmem).trans hn.symm
    · cases List.mem_singleton.mp hmem
      rfl
  · exact ht.only.snoc fun _ _ => ⟨new, n', rfl⟩

omit [DecidableEq U] in
/-- A claim with a stamp that was never used begins a tenure. -/
theorem tenure_fresh (hh : ∀ n₀, h ≠ some (.named n₀ t))
    (hl : ∀ new n', .claim new u n' t ∉ l) (new : Bool) (n : N) :
    Tenure R u n t h (l ++ [.claim new u n t]) := by
  refine ⟨Or.inr ⟨new, n, by simp⟩, fun n₀ hn₀ => absurd hn₀ (hh n₀), fun new₁ n₁ hmem => ?_, ?_⟩
  · rcases List.mem_append.mp hmem with hmem | hmem
    · exact absurd hmem (hl new₁ n₁)
    · cases List.mem_singleton.mp hmem
      rfl
  · refine AtEach.snoc (fun pre b hpre hex => ?_) fun _ _ => ⟨new, n, rfl⟩
    obtain ⟨new₁, n₁, hmem⟩ := hex
    exact absurd (hpre.subset (List.mem_append_left _ hmem)) (hl new₁ n₁)

-- ============================================================================
-- The invariant
-- ============================================================================

variable (R)

/-- A save that goes home.  If the claim it is about still stands there, a claim
    that takes its nick away is ahead of the save, and the standing ones among
    those ahead do so without losing it themselves. -/
def SaveOk (L : Ledger U N T) (x : Side) (pre : List (Word U N T)) (m : Word U N T) : Prop :=
  ∀ u t n, m = .save u t → R.home u ≠ x → L.cur u = some (.named n t) →
    (∃ new w n' t', .claim new w n' t' ∈ pre ∧ R.fold n' = R.fold n ∧
      R.loser u t w t' ≠ .second) ∧
    ∀ new w n' t', .claim new w n' t' ∈ pre → R.fold n' = R.fold n → L.Live w t' →
      R.loser u t w t' = .first

/-- The other side has what it was told, or it saved the user and told the home. -/
def SeenOk (L : Ledger U N T) (u : U) : Prop :=
  L.seen u = L.told u ∨
    L.seen u = some .saved ∧ ∃ n t, L.told u = some (.named n t) ∧
      (L.Live u t → .save u t ∈ L.link (R.home u).other)

/-- The homes and the links. -/
structure Core (L : Ledger U N T) : Prop where
  stream : ∀ x, Stream R x L.told L.cur (L.link x)
  tenure : ∀ u n t, L.cur u = some (.named n t) → Tenure R u n t (L.told u) (L.link (R.home u))
  past_cur : ∀ u n t, L.cur u = some (.named n t) → t ∈ L.past u
  past_told : ∀ u n t, L.told u = some (.named n t) → t ∈ L.past u
  past_link : ∀ x, ∀ m ∈ L.link x, m.stamp ∈ L.past m.subject

/-- The whole invariant. -/
structure Inv (L : Ledger U N T) : Prop extends Core R L where
  unique : ∀ x, Apart R (L.view R x)
  seen : ∀ u, SeenOk R L u
  saves : ∀ x, AtEach (SaveOk R L x) (L.link x)

/-- Nobody is there and nothing was said. -/
def Ledger.empty : Ledger U N T := ⟨fun _ => none, fun _ => none, fun _ => none, fun _ => [], fun _ => []⟩

end Ledger

end Bluebox.Nick

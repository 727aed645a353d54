/-
  Bluebox.Glob.Escape

  Masks with escapes, and `collapse` and `collapse_esc` of `libratboxcore/match.c`,
  which make one star of a run of stars.

  Both are loops over the bytes with flags: whether the last byte was a star, and, with
  escapes, whether a backslash is open.  What they keep is stated for all values of the
  flags, where an open star stands in front of the mask.
-/
import Bluebox.Glob.Match
import Bluebox.Atable
import Bluebox.Channel.ChMode

namespace Bluebox.Glob

open Bluebox.Lib Bluebox.Lib.Glob

-- ============================================================================
-- The language of a mask with escapes
-- ============================================================================

/-- The backslash. -/
def backslash : UInt8 := 92

/-- What a mask with escapes is made of. -/
inductive Atom
  | any
  | byte
  | letter
  | digit
  | blank
  | char (c : UInt8)
deriving DecidableEq, Repr

/-- What an atom stands for. -/
def Atom.token : Atom → Token UInt8
  | .any => .any
  | .byte => .one fun _ => true
  | .letter => .one isLetter
  | .digit => .one isDigit
  | .blank => .one fun a => a == 32
  | .char c => .one fun a => toLower c == toLower a

/-- A byte that no backslash is in front of. -/
def plainAtom (b : UInt8) : Atom :=
  if b = star then .any
  else if b = quest then .byte
  else if b = 64 then .letter
  else if b = 35 then .digit
  else .char b

/-- A byte behind a backslash. -/
def escapedAtom (b : UInt8) : Atom := if b = 115 then .blank else .char b

/-- The atoms of a mask; `esc` says that a backslash is open.  A mask that ends with an
    open backslash is none. -/
def readEsc : Bool → Bytes → Option (List Atom)
  | esc, [] => if esc then none else some []
  | esc, b :: s =>
    if esc then (readEsc false s).map (escapedAtom b :: ·)
    else if b = backslash then readEsc true s
    else (readEsc false s).map (plainAtom b :: ·)

/-- The language of a mask with escapes. -/
def InEscLang (mask name : Bytes) : Prop :=
  ∃ atoms, readEsc false mask = some atoms ∧ Denotes (atoms.map Atom.token) name

/-- The bytes of a mask, with whether a backslash escapes them. -/
def marks : Bool → Bytes → List (Bool × UInt8)
  | _, [] => []
  | esc, b :: s => (esc, b) :: marks (!esc && b == backslash) s

-- ============================================================================
-- collapse
-- ============================================================================

/-- The loop of `collapse`; `f` is its flag. -/
def collapseLoop : Bool → Bytes → Bytes
  | _, [] => []
  | f, c :: s =>
    if c = star then (if f then collapseLoop true s else star :: collapseLoop true s)
    else c :: collapseLoop false s

/-- A star in front of a pattern, if the flag is set. -/
def opened (f : Bool) (p : List (Token UInt8)) : List (Token UInt8) := if f then .any :: p else p

section Collapse

variable {p q : List (Token UInt8)} {f : Bool}

theorem collapseLoop_eq_collapse (s : Bytes) : collapseLoop false s = collapse s := by
  induction s using collapse.induct with
  | case1 => rfl
  | case2 b =>
    by_cases hb : b = star
    · rw [collapseLoop, if_pos hb, hb]
      rfl
    · rw [collapseLoop, if_neg hb]
      rfl
  | case3 b c s hstar ih =>
    obtain ⟨rfl, rfl⟩ := hstar
    rw [collapse, if_pos ⟨rfl, rfl⟩, ← ih]
    rfl
  | case4 b c s hstar ih =>
    rw [collapse, if_neg hstar, ← ih]
    by_cases hb : b = star
    · have hc : c ≠ star := fun hc => hstar ⟨hb, hc⟩
      rw [collapseLoop, if_pos hb, hb]
      simp only [collapseLoop, if_neg hc]
      rfl
    · rw [collapseLoop, if_neg hb]

/-- What follows may be replaced by what denotes the same. -/
theorem denotes_opened_cons (t : Token UInt8) (h : ∀ w, Denotes p w ↔ Denotes q w) (w : Bytes) :
    Denotes (opened f (t :: p)) w ↔ Denotes (opened f (t :: q)) w := by
  cases f with
  | true => exact denotes_cons_congr .any (denotes_cons_congr t h) w
  | false => exact denotes_cons_congr t h w

theorem denotes_opened_any (w : Bytes) : Denotes (opened f (.any :: p)) w ↔ Denotes (.any :: p) w := by
  cases f with
  | true => exact denotes_any_any
  | false => exact Iff.rfl

theorem denotes_collapseLoop (s : Bytes) : ∀ (f : Bool) (w : Bytes),
    Denotes (opened f ((collapseLoop f s).map token)) w ↔ Denotes (opened f (s.map token)) w := by
  induction s with
  | nil => exact fun _ _ => Iff.rfl
  | cons c s ih =>
    intro f w
    rw [collapseLoop]
    by_cases hc : c = star
    · subst hc
      rw [if_pos rfl, List.map_cons, token_star, denotes_opened_any]
      cases f with
      | true => exact ih true w
      | false => exact ih true w
    · rw [if_neg hc, List.map_cons, List.map_cons]
      exact denotes_opened_cons (token c) (ih false) w

theorem collapseLoop_idem (s : Bytes) : ∀ f, collapseLoop f (collapseLoop f s) = collapseLoop f s := by
  induction s with
  | nil => exact fun _ => rfl
  | cons c s ih =>
    intro f
    rw [collapseLoop]
    by_cases hc : c = star
    · rw [if_pos hc]
      cases f with
      | true => exact ih true
      | false =>
        rw [if_neg Bool.false_ne_true, collapseLoop, if_pos rfl, if_neg Bool.false_ne_true, ih true]
    · rw [if_neg hc, collapseLoop, if_neg hc, ih false]

/-- A star in front of two stars, or what is left of it. -/
theorem not_infix_cons {α : Type} {a b c : α} {s : List α} (h : ¬ [a, b] <:+: s)
    (hfirst : c = a → s.head? ≠ some b) : ¬ [a, b] <:+: c :: s := by
  intro hin
  rcases List.infix_cons_iff.mp hin with ⟨t, ht⟩ | hin
  · obtain ⟨rfl, rfl⟩ := List.cons.inj ht
    exact hfirst rfl rfl
  · exact h hin

theorem collapseLoop_noDouble (s : Bytes) : ∀ f, ¬ [star, star] <:+: collapseLoop f s ∧
    (f = true → (collapseLoop f s).head? ≠ some star) := by
  induction s with
  | nil => exact fun f => ⟨by simp [collapseLoop], fun _ h => by cases h⟩
  | cons c s ih =>
    intro f
    rw [collapseLoop]
    by_cases hc : c = star
    · rw [if_pos hc]
      obtain ⟨hno, hhead⟩ := ih true
      cases f with
      | true => exact ⟨hno, hhead⟩
      | false => exact ⟨not_infix_cons hno fun _ => hhead rfl, fun h => by cases h⟩
    · rw [if_neg hc]
      exact ⟨not_infix_cons (ih false).1 fun h => absurd h hc, fun _ h => hc (Option.some.inj h)⟩

end Collapse

-- ============================================================================
-- collapse_esc
-- ============================================================================

/-- The loop of `collapse_esc`; `one` and `two` are the bits of its flags. -/
def collapseEscLoop : Bool → Bool → Bytes → Bytes
  | _, _, [] => []
  | one, two, c :: s =>
    if !two ∧ c = star then
      (if one then collapseEscLoop true two s else star :: collapseEscLoop true two s)
    else if !two ∧ c = backslash then backslash :: collapseEscLoop one true s
    else c :: collapseEscLoop false false s

/-- `collapse_esc`. -/
def collapseEsc (pattern : Bytes) : Bytes := collapseEscLoop false false pattern

section CollapseEsc

variable {one : Bool} {c : UInt8} {s : Bytes}

theorem collapseEscLoop_star : collapseEscLoop one false (star :: s) =
    if one then collapseEscLoop true false s else star :: collapseEscLoop true false s := by
  rw [collapseEscLoop, if_pos ⟨rfl, rfl⟩]

theorem collapseEscLoop_backslash :
    collapseEscLoop one false (backslash :: s) = backslash :: collapseEscLoop one true s := by
  rw [collapseEscLoop, if_neg (fun h => absurd h.2 (by decide)), if_pos ⟨rfl, rfl⟩]

theorem collapseEscLoop_plain (hstar : c ≠ star) (hback : c ≠ backslash) :
    collapseEscLoop one false (c :: s) = c :: collapseEscLoop false false s := by
  rw [collapseEscLoop, if_neg (fun h => hstar h.2), if_neg (fun h => hback h.2)]

theorem collapseEscLoop_escaped :
    collapseEscLoop one true (c :: s) = c :: collapseEscLoop false false s := by
  rw [collapseEscLoop, if_neg (fun h => Bool.noConfusion h.1), if_neg (fun h => Bool.noConfusion h.1)]

theorem collapseEscLoop_idem (s : Bytes) : ∀ one two,
    collapseEscLoop one two (collapseEscLoop one two s) = collapseEscLoop one two s := by
  induction s with
  | nil => exact fun _ _ => rfl
  | cons c s ih =>
    intro one two
    cases two with
    | true => rw [collapseEscLoop_escaped, collapseEscLoop_escaped, ih false false]
    | false =>
      by_cases hstar : c = star
      · subst hstar
        rw [collapseEscLoop_star]
        cases one with
        | true => exact ih true false
        | false =>
          rw [if_neg Bool.false_ne_true, collapseEscLoop_star, if_neg Bool.false_ne_true, ih true false]
      · by_cases hback : c = backslash
        · subst hback
          rw [collapseEscLoop_backslash, collapseEscLoop_backslash, ih one true]
        · rw [collapseEscLoop_plain hstar hback, collapseEscLoop_plain hstar hback, ih false false]

/-- An open star, and no star as the first byte behind it. -/
theorem collapseEscLoop_noDouble (s : Bytes) : ∀ one two,
    ¬ [(false, star), (false, star)] <:+: marks two (collapseEscLoop one two s) ∧
      (one = true → (marks two (collapseEscLoop one two s)).head? ≠ some (false, star)) := by
  induction s with
  | nil => exact fun one two => ⟨by simp [collapseEscLoop, marks], fun _ h => by cases h⟩
  | cons c s ih =>
    intro one two
    cases two with
    | true =>
      rw [collapseEscLoop_escaped]
      refine ⟨not_infix_cons (ih false false).1 fun h => ?_, fun _ h => ?_⟩
      · cases (Prod.mk.inj h).1
      · cases (Prod.mk.inj (Option.some.inj h)).1
    | false =>
      by_cases hstar : c = star
      · subst hstar
        rw [collapseEscLoop_star]
        obtain ⟨hno, hhead⟩ := ih true false
        cases one with
        | true => exact ⟨hno, hhead⟩
        | false => exact ⟨not_infix_cons hno fun _ => hhead rfl, fun h => by cases h⟩
      · by_cases hback : c = backslash
        · subst hback
          rw [collapseEscLoop_backslash]
          refine ⟨not_infix_cons (ih one true).1 fun h => ?_, fun _ h => ?_⟩
          · exact absurd (Prod.mk.inj h).2 hstar
          · exact absurd (Prod.mk.inj (Option.some.inj h)).2 hstar
        · rw [collapseEscLoop_plain hstar hback]
          have hesc : (!false && c == backslash) = false := by simpa using hback
          rw [marks, hesc]
          refine ⟨not_infix_cons (ih false false).1 fun h => ?_, fun _ h => ?_⟩
          · exact absurd (Prod.mk.inj h).2 hstar
          · exact absurd (Prod.mk.inj (Option.some.inj h)).2 hstar

theorem readEsc_escaped (b : UInt8) (s : Bytes) :
    readEsc true (b :: s) = (readEsc false s).map (escapedAtom b :: ·) := by
  rw [readEsc, if_pos rfl]

theorem readEsc_backslash (s : Bytes) : readEsc false (backslash :: s) = readEsc true s := by
  rw [readEsc, if_neg Bool.false_ne_true, if_pos rfl]

theorem readEsc_plain {b : UInt8} (h : b ≠ backslash) (s : Bytes) :
    readEsc false (b :: s) = (readEsc false s).map (plainAtom b :: ·) := by
  rw [readEsc, if_neg Bool.false_ne_true, if_neg h]

/-- Two readings of the same language behind a star, or none. -/
def SameReading (one : Bool) : Option (List Atom) → Option (List Atom) → Prop :=
  Option.Rel fun q p => ∀ w, Denotes (opened one (q.map Atom.token)) w ↔
    Denotes (opened one (p.map Atom.token)) w

theorem SameReading.cons {q p : Option (List Atom)} (h : SameReading false q p) (x : Atom) (one : Bool) :
    SameReading one (q.map (x :: ·)) (p.map (x :: ·)) := by
  cases h with
  | none => exact .none
  | some h => exact .some (denotes_opened_cons x.token h)

/-- An atom for any string is an open star. -/
theorem SameReading.star {q p : Option (List Atom)} (h : SameReading true q p) :
    SameReading true q (p.map (.any :: ·)) ∧ SameReading false (q.map (.any :: ·)) (p.map (.any :: ·)) := by
  cases h with
  | none => exact ⟨.none, .none⟩
  | some h => exact ⟨.some fun w => (h w).trans denotes_any_any.symm, .some h⟩

theorem readEsc_collapseEscLoop (s : Bytes) : ∀ one two,
    SameReading one (readEsc two (collapseEscLoop one two s)) (readEsc two s) := by
  induction s with
  | nil =>
    intro one two
    cases two with
    | true => exact .none
    | false => exact .some fun _ => Iff.rfl
  | cons c s ih =>
    intro one two
    cases two with
    | true =>
      rw [collapseEscLoop_escaped, readEsc_escaped, readEsc_escaped]
      exact (ih false false).cons _ one
    | false =>
      by_cases hstar : c = star
      · subst hstar
        rw [collapseEscLoop_star, readEsc_plain (by decide)]
        cases one with
        | true => exact (ih true false).star.1
        | false =>
          rw [if_neg Bool.false_ne_true, readEsc_plain (by decide)]
          exact (ih true false).star.2
      · by_cases hback : c = backslash
        · subst hback
          rw [collapseEscLoop_backslash, readEsc_backslash, readEsc_backslash]
          exact ih one true
        · rw [collapseEscLoop_plain hstar hback, readEsc_plain hback, readEsc_plain hback]
          exact (ih false false).cons _ one

theorem inEscLang_collapseEsc (pattern name : Bytes) :
    InEscLang (collapseEsc pattern) name ↔ InEscLang pattern name := by
  have hsame := readEsc_collapseEscLoop pattern false false
  unfold InEscLang collapseEsc
  generalize readEsc false (collapseEscLoop false false pattern) = q at hsame ⊢
  generalize readEsc false pattern = p at hsame ⊢
  cases hsame with
  | none => simp
  | some h =>
    simp only [Option.some.injEq, exists_eq_left']
    exact h name

end CollapseEsc

/-- `collapse` and `collapse_esc` leave no two stars in a row, are idempotent and keep the
    language. -/
theorem collapse_keeps_language (pattern : Bytes) :
    (¬ [star, star] <:+: collapse pattern ∧
      collapse (collapse pattern) = collapse pattern ∧
      ∀ name, InLang (collapse pattern) name ↔ InLang pattern name) ∧
    (¬ [(false, star), (false, star)] <:+: marks false (collapseEsc pattern) ∧
      collapseEsc (collapseEsc pattern) = collapseEsc pattern ∧
      ∀ name, InEscLang (collapseEsc pattern) name ↔ InEscLang pattern name) := by
  rw [← collapseLoop_eq_collapse, ← collapseLoop_eq_collapse]
  exact ⟨⟨(collapseLoop_noDouble pattern false).1, collapseLoop_idem pattern false,
      denotes_collapseLoop pattern false⟩,
    (collapseEscLoop_noDouble pattern false false).1, collapseEscLoop_idem pattern false false,
    inEscLang_collapseEsc pattern⟩

end Bluebox.Glob

/-
  Bluebox.Lib.Glob

  Patterns with wildcards.  A token stands for any string or for one symbol that passes
  a test; a pattern is a list of tokens.

  A search walks pattern and text and keeps one place to come back to, the one behind
  the last wildcard for strings.  That is enough: where the part before such a wildcard
  fits first, the rest of the text is the longest that can be left for what follows.
-/
import Mathlib.Data.List.Forall2
import Mathlib.Data.List.Infix

namespace Bluebox.Lib.Glob

variable {α : Type}

/-- A token of a pattern. -/
inductive Token (α : Type)
  | any
  | one (test : α → Bool)

/-- The language of a pattern. -/
def Denotes : List (Token α) → List α → Prop
  | [], w => w = []
  | .any :: p, w => ∃ u, u <:+ w ∧ Denotes p u
  | .one test :: p, w => ∃ a u, w = a :: u ∧ test a = true ∧ Denotes p u

/-- Tests that the symbols of a string pass, one by one. -/
def Fits (tests : List (α → Bool)) (x : List α) : Prop := List.Forall₂ (fun test a => test a = true) tests x

-- ============================================================================
-- The language
-- ============================================================================

section Language

variable {p q : List (Token α)} {tests : List (α → Bool)} {test : α → Bool} {a : α} {w x u : List α}

theorem denotes_one_cons : Denotes (.one test :: p) (a :: w) ↔ test a = true ∧ Denotes p w := by
  constructor
  · rintro ⟨b, u, hw, htest, hp⟩
    obtain ⟨rfl, rfl⟩ := List.cons.inj hw
    exact ⟨htest, hp⟩
  · rintro ⟨htest, hp⟩
    exact ⟨a, w, rfl, htest, hp⟩

theorem not_denotes_one_nil : ¬ Denotes (.one test :: p) [] := by
  rintro ⟨a, u, hw, -⟩
  cases hw

/-- A pattern that begins with `any` does not lose by more text in front. -/
theorem Denotes.of_suffix (h : Denotes (.any :: p) u) (hu : u <:+ w) : Denotes (.any :: p) w := by
  obtain ⟨v, hv, hp⟩ := h
  exact ⟨v, hv.trans hu, hp⟩

theorem denotes_any_of (h : Denotes p w) : Denotes (.any :: p) w := ⟨w, List.suffix_rfl, h⟩

theorem denotes_any_cons : Denotes (.any :: p) (a :: w) ↔ Denotes p (a :: w) ∨ Denotes (.any :: p) w := by
  constructor
  · rintro ⟨u, hu, hp⟩
    rcases List.suffix_cons_iff.mp hu with rfl | hu
    · exact Or.inl hp
    · exact Or.inr ⟨u, hu, hp⟩
  · rintro (hp | hp)
    · exact denotes_any_of hp
    · exact hp.of_suffix (List.suffix_cons a w)

/-- Two of `any` in a row are one. -/
theorem denotes_any_any : Denotes (.any :: .any :: p) w ↔ Denotes (.any :: p) w := by
  constructor
  · rintro ⟨u, hu, hp⟩
    exact hp.of_suffix hu
  · exact denotes_any_of

/-- Replacing the rest of a pattern by one of the same language. -/
theorem denotes_cons_congr (t : Token α) (h : ∀ w, Denotes p w ↔ Denotes q w) (w : List α) :
    Denotes (t :: p) w ↔ Denotes (t :: q) w := by
  cases t with
  | any => simp only [Denotes, h]
  | one test => simp only [Denotes, h]

/-- A string of a pattern in two parts is in two parts. -/
theorem denotes_append : Denotes (p ++ q) w ↔ ∃ x u, w = x ++ u ∧ Denotes p x ∧ Denotes q u := by
  induction p generalizing w with
  | nil =>
    constructor
    · exact fun h => ⟨[], w, rfl, rfl, h⟩
    · rintro ⟨x, u, rfl, rfl, hq⟩
      exact hq
  | cons t p ih =>
    cases t with
    | any =>
      constructor
      · rintro ⟨v, ⟨first, rfl⟩, hv⟩
        obtain ⟨x, u, rfl, hp, hq⟩ := ih.mp hv
        exact ⟨first ++ x, u, (List.append_assoc _ _ _).symm, ⟨x, List.suffix_append _ _, hp⟩, hq⟩
      · rintro ⟨x, u, rfl, ⟨y, ⟨first, rfl⟩, hp⟩, hq⟩
        exact ⟨y ++ u, ⟨first, (List.append_assoc _ _ _).symm⟩, ih.mpr ⟨y, u, rfl, hp, hq⟩⟩
    | one test =>
      constructor
      · rintro ⟨a, v, rfl, htest, hv⟩
        obtain ⟨x, u, rfl, hp, hq⟩ := ih.mp hv
        exact ⟨a :: x, u, rfl, ⟨a, x, rfl, htest, hp⟩, hq⟩
      · rintro ⟨x, u, rfl, ⟨a, y, rfl, htest, hp⟩, hq⟩
        exact ⟨a, y ++ u, rfl, htest, ih.mpr ⟨y, u, rfl, hp, hq⟩⟩

/-- Tests in front take as many symbols. -/
theorem denotes_tests_append : Denotes (tests.map .one ++ p) w ↔
    ∃ x u, w = x ++ u ∧ Fits tests x ∧ Denotes p u := by
  induction tests generalizing w with
  | nil =>
    constructor
    · exact fun h => ⟨[], w, rfl, .nil, h⟩
    · rintro ⟨x, u, rfl, hx, hp⟩
      cases hx
      exact hp
  | cons test tests ih =>
    constructor
    · rintro ⟨a, v, rfl, htest, hp⟩
      obtain ⟨x, u, rfl, hx, hp⟩ := ih.mp hp
      exact ⟨a :: x, u, rfl, .cons htest hx, hp⟩
    · rintro ⟨x, u, rfl, hx, hp⟩
      cases hx with
      | cons htest hx => exact ⟨_, _, rfl, htest, ih.mpr ⟨_, u, rfl, hx, hp⟩⟩

/-- The tests decide on as many symbols as there are of them. -/
theorem denotes_append_of_fits (hx : Fits tests x) :
    Denotes (tests.map .one ++ p) (x ++ w) ↔ Denotes p w := by
  rw [denotes_tests_append]
  constructor
  · rintro ⟨y, u, hw, hy, hp⟩
    obtain ⟨rfl, rfl⟩ := List.append_inj hw (hx.length_eq.symm.trans hy.length_eq)
    exact hp
  · exact fun hp => ⟨x, w, rfl, hx, hp⟩

/-- What is behind a place where the tests fit is enough for what follows an `any`. -/
theorem denotes_rest_of_fits (hx : Fits tests x)
    (h : Denotes (.any :: (tests.map .one ++ .any :: p)) (x ++ w)) : Denotes (.any :: p) w := by
  obtain ⟨u, hu, hp⟩ := h
  obtain ⟨y, v, rfl, hy, hp⟩ := denotes_tests_append.mp hp
  have hlen : v.length ≤ w.length := by
    have hle := hu.length_le
    rw [List.length_append, List.length_append, ← hx.length_eq, ← hy.length_eq] at hle
    omega
  exact hp.of_suffix (List.suffix_of_suffix_length_le ((List.suffix_append y v).trans hu)
    (List.suffix_append x w) hlen)

end Language

-- ============================================================================
-- Searching
-- ============================================================================

/-- Where a search is in pattern and text, and where it comes back to. -/
structure Search (α : Type) where
  p : List (Token α)
  w : List α
  pa : List (Token α)
  wa : List α
  wild : Bool

/-- What the search has to find from the place it comes back to. -/
def Search.left (s : Search α) : List (Token α) := if s.wild then .any :: s.pa else s.pa

/-- The text is in the language if and only if the search has something to find, and
    since the place it comes back to tests have taken symbols one by one. -/
structure Exact (full : List (Token α)) (text : List α) (s : Search α) : Prop where
  same : Denotes full text ↔ Denotes s.left s.wa
  taken : ∃ tests x, s.pa = tests.map .one ++ s.p ∧ s.wa = x ++ s.w ∧ Fits tests x

section Rules

variable {full : List (Token α)} {text : List α} {s : Search α} {test : α → Bool}
  {p pa : List (Token α)} {a : α} {w wa : List α} {wild : Bool}

theorem Exact.start (full : List (Token α)) (text : List α) :
    Exact full text ⟨full, text, full, text, false⟩ where
  same := Iff.rfl
  taken := ⟨[], [], rfl, rfl, .nil⟩

/-- A symbol that passes its test. -/
theorem Exact.take (h : Exact full text ⟨.one test :: p, a :: w, pa, wa, wild⟩)
    (htest : test a = true) : Exact full text ⟨p, w, pa, wa, wild⟩ where
  same := h.same
  taken := by
    obtain ⟨tests, x, hpa, hwa, hx⟩ := h.taken
    refine ⟨tests ++ [test], x ++ [a], ?_, ?_, List.rel_append hx (.cons htest .nil)⟩
    · rw [List.map_append, List.append_assoc]
      exact hpa
    · rw [List.append_assoc]
      exact hwa

/-- The alignment is good if and only if the rest is. -/
theorem Exact.here (h : Exact full text s) : Denotes s.pa s.wa ↔ Denotes s.p s.w := by
  obtain ⟨tests, x, hpa, hwa, hx⟩ := h.taken
  rw [hpa, hwa]
  exact denotes_append_of_fits hx

theorem Exact.of_here (h : Exact full text s) (hrest : Denotes s.p s.w) : Denotes full text := by
  have hpa := h.here.mpr hrest
  refine h.same.mpr ?_
  unfold Search.left
  split
  · exact denotes_any_of hpa
  · exact hpa

/-- A wildcard for strings becomes the place to come back to. -/
theorem Exact.skip (h : Exact full text ⟨.any :: p, w, pa, wa, wild⟩) :
    Exact full text ⟨p, w, p, w, true⟩ where
  same := by
    show _ ↔ Denotes (.any :: p) w
    refine ⟨fun hfull => ?_, h.of_here⟩
    have hleft := h.same.mp hfull
    cases wild with
    | true =>
      obtain ⟨tests, x, hpa, hwa, hx⟩ := h.taken
      have hleft : Denotes (.any :: pa) wa := hleft
      dsimp only at hpa hwa
      rw [hpa, hwa] at hleft
      exact denotes_rest_of_fits hx hleft
    | false => exact h.here.mp hleft
  taken := ⟨[], [], rfl, rfl, .nil⟩

/-- The next alignment, where this one is not good. -/
theorem Exact.back (h : Exact full text ⟨p, w, pa, a :: wa, true⟩) (hbad : ¬ Denotes p w) :
    Exact full text ⟨pa, wa, pa, wa, true⟩ where
  same := by
    have hsame : Denotes full text ↔ Denotes (.any :: pa) (a :: wa) := h.same
    rw [hsame, denotes_any_cons, h.here]
    exact or_iff_right hbad
  taken := ⟨[], [], rfl, rfl, .nil⟩

/-- Without a place to come back to, this is the only alignment. -/
theorem Exact.only (h : Exact full text ⟨p, w, pa, wa, false⟩) : Denotes full text ↔ Denotes p w :=
  h.same.trans h.here

/-- No text is left for a test. -/
theorem Exact.starved (h : Exact full text ⟨.one test :: p, [], pa, wa, wild⟩) : ¬ Denotes full text := by
  intro hfull
  have hleft := h.same.mp hfull
  cases wild with
  | false => exact not_denotes_one_nil (h.here.mp hleft)
  | true =>
    obtain ⟨tests, x, hpa, hwa, hx⟩ := h.taken
    obtain ⟨u, hu, hp⟩ : Denotes (.any :: pa) wa := hleft
    dsimp only at hpa hwa
    rw [hpa] at hp
    obtain ⟨y, v, rfl, hy, b, v', rfl, -⟩ := denotes_tests_append.mp hp
    have hle := hu.length_le
    rw [hwa, List.append_nil, List.length_append, List.length_cons, ← hx.length_eq, ← hy.length_eq] at hle
    omega

/-- Behind the last wildcard for strings there are as many tests as symbols, and none can
    fail. -/
theorem Exact.trailing (h : Exact full text ⟨[], w, pa, wa, true⟩)
    (hall : ∀ t ∈ pa, ∃ test, t = .one test ∧ ∀ a, test a = true) : Denotes full text := by
  refine h.same.mpr ?_
  obtain ⟨tests, x, hpa, hwa, hx⟩ := h.taken
  dsimp only at hpa hwa
  have htrue : ∀ test ∈ tests, ∀ a, test a = true := by
    intro test htest
    have hmem : Token.one test ∈ pa := by
      rw [hpa]
      exact List.mem_append_left _ (List.mem_map_of_mem htest)
    obtain ⟨test', heq, hpass⟩ := hall _ hmem
    obtain rfl := Token.one.inj heq
    exact hpass
  have hlen : tests.length ≤ wa.length := by
    rw [hwa, List.length_append, hx.length_eq]
    omega
  show Denotes (.any :: pa) wa
  refine ⟨wa.drop (wa.length - tests.length), List.drop_suffix _ _, ?_⟩
  rw [hpa, denotes_tests_append]
  refine ⟨_, [], (List.append_nil _).symm, ?_, rfl⟩
  rw [Fits, List.forall₂_iff_get]
  refine ⟨?_, fun i hi _ => htrue _ (List.get_mem _ _) _⟩
  rw [List.length_drop]
  omega

end Rules

end Bluebox.Lib.Glob

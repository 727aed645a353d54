/-
  Bluebox.Spam.Escape

  `match_esc` and the case of a mask.

  An escaped `s` stands for a blank and an escaped `S` for the letter, so masks that
  differ only in case can match different names.  Behind a backslash that letter is
  the only one where case matters: `escFold` brings all others to lower case.
-/
import Bluebox.Atable

namespace Bluebox.Spam

open Bluebox.Lib

/-- A mask in lower case, but for an `S` behind a backslash; `esc` says that there is
    a backslash in front of the text. -/
def escFold : Bool → Bytes → Bytes
  | _, [] => []
  | esc, b :: s => (if esc && b == 83 then 83 else toLower b) :: escFold (b == 92) s

theorem toLower_special (b : UInt8) : toLower 83 = 115 ∧ (toLower b = 92 ↔ b = 92) ∧
    (toLower b = 64 ↔ b = 64) ∧ (toLower b = 35 ↔ b = 35) ∧ (toLower b = 115 ↔ b = 115 ∨ b = 83) ∧
    toLower b ≠ 83 := by
  have hall : ∀ x : Fin 256, toLower 83 = 115 ∧
      (toLower (UInt8.ofFin x) = 92 ↔ UInt8.ofFin x = 92) ∧
      (toLower (UInt8.ofFin x) = 64 ↔ UInt8.ofFin x = 64) ∧
      (toLower (UInt8.ofFin x) = 35 ↔ UInt8.ofFin x = 35) ∧
      (toLower (UInt8.ofFin x) = 115 ↔ UInt8.ofFin x = 115 ∨ UInt8.ofFin x = 83) ∧
      toLower (UInt8.ofFin x) ≠ 83 := by
    decide +kernel
  exact hall b.toFin

/-- Characters that look alike to `match_esc`. -/
def AlikeChar (esc : Bool) (a b : UInt8) : Prop :=
  toLower a = toLower b ∧ (esc = true → (a = 83 ↔ b = 83))

/-- Texts that look alike to `match_esc`, behind a backslash or not. -/
def Alike (esc : Bool) (s t : Bytes) : Prop := escFold esc s = escFold esc t

theorem AlikeChar.backslash {esc : Bool} {a b : UInt8} (h : AlikeChar esc a b) :
    (a == 92) = (b == 92) := by
  rw [Bool.eq_iff_iff, beq_iff_eq, beq_iff_eq, ← (toLower_special a).2.1,
    ← (toLower_special b).2.1, h.1]

theorem alike_cons {esc : Bool} {a b : UInt8} {s t : Bytes} :
    Alike esc (a :: s) (b :: t) ↔ AlikeChar esc a b ∧ Alike (a == 92) s t := by
  have hhead : (if esc && a == 83 then 83 else toLower a) = (if esc && b == 83 then 83 else toLower b) ↔
      AlikeChar esc a b := by
    unfold AlikeChar
    have ha := (toLower_special a).2.2.2.2.2
    have hb := (toLower_special b).2.2.2.2.2
    cases esc with
    | false => simp
    | true =>
      by_cases ha' : a = 83
      · by_cases hb' : b = 83
        · simp [ha', hb']
        · simp [ha', hb', Ne.symm hb]
      · by_cases hb' : b = 83
        · simp [ha', hb', ha]
        · simp [ha', hb']
  unfold Alike
  rw [escFold, escFold, List.cons.injEq, hhead]
  refine and_congr_right fun h => ?_
  rw [h.backslash]

theorem Alike.nil_iff {esc : Bool} {s t : Bytes} (h : Alike esc s t) : s = [] ↔ t = [] := by
  cases s with
  | nil =>
    cases t with
    | nil => rfl
    | cons b t => cases h
  | cons a s =>
    cases t with
    | nil => cases h
    | cons b t => exact ⟨fun h => absurd h (List.cons_ne_nil a s), fun h => absurd h (List.cons_ne_nil b t)⟩

theorem Alike.weaken {s t : Bytes} (h : Alike true s t) : Alike false s t := by
  cases s with
  | nil =>
    rw [h.nil_iff.mp rfl]
    rfl
  | cons a s =>
    cases t with
    | nil => cases h
    | cons b t =>
      obtain ⟨hchar, htail⟩ := Iff.mp alike_cons h
      exact Iff.mpr alike_cons ⟨⟨hchar.1, fun h => Bool.noConfusion h⟩, htail⟩

theorem Alike.head {esc : Bool} {s t : Bytes} (h : Alike esc s t) :
    AlikeChar esc (s.headD 0) (t.headD 0) := by
  cases s with
  | nil =>
    rw [h.nil_iff.mp rfl]
    exact ⟨rfl, fun _ => Iff.rfl⟩
  | cons a s =>
    cases t with
    | nil => cases h
    | cons b t => exact (Iff.mp alike_cons h).1

theorem Alike.lower {s t : Bytes} : ∀ {esc : Bool}, Alike esc s t → Bluebox.lower s = Bluebox.lower t := by
  induction s generalizing t with
  | nil =>
    intro esc h
    rw [h.nil_iff.mp rfl]
  | cons a s ih =>
    intro esc h
    cases t with
    | nil => cases h
    | cons b t =>
      obtain ⟨hchar, htail⟩ := Iff.mp alike_cons h
      show toLower a :: Bluebox.lower s = toLower b :: Bluebox.lower t
      rw [hchar.1, ih htail]

/-- Any character of a text can be asked for by `head?`, stars and backslashes. -/
theorem Alike.head?_iff {esc : Bool} {s t : Bytes} (h : Alike esc s t) {c : UInt8}
    (hc : ∀ b, toLower b = c ↔ b = c) : s.head? = some c ↔ t.head? = some c := by
  cases s with
  | nil =>
    rw [h.nil_iff.mp rfl]
  | cons a s =>
    cases t with
    | nil => cases h
    | cons b t =>
      rw [List.head?_cons, List.head?_cons, Option.some_inj, Option.some_inj, ← hc a, ← hc b,
        (Iff.mp alike_cons h).1.1]

theorem Alike.tail {s t : Bytes} (h : Alike false s t) : Alike false s.tail t.tail := by
  cases s with
  | nil =>
    rw [h.nil_iff.mp rfl]
    rfl
  | cons a s =>
    cases t with
    | nil => cases h
    | cons b t =>
      have htail := (Iff.mp alike_cons h).2
      cases hesc : a == 92 with
      | false =>
        rw [hesc] at htail
        exact htail
      | true =>
        rw [hesc] at htail
        exact htail.weaken

theorem Alike.tail_quoted {s t : Bytes} (h : Alike false s t) (hs : s.head? = some 92) :
    Alike true s.tail t.tail := by
  cases s with
  | nil => cases hs
  | cons a s =>
    cases t with
    | nil => cases h
    | cons b t =>
      have htail := (Iff.mp alike_cons h).2
      rw [Option.some.inj hs] at htail
      exact htail

theorem Alike.dropStars {s t : Bytes} (h : Alike false s t) :
    Alike false (s.dropWhile (· == star)) (t.dropWhile (· == star)) := by
  induction s generalizing t with
  | nil =>
    rw [h.nil_iff.mp rfl]
    rfl
  | cons a s ih =>
    cases t with
    | nil => cases h
    | cons b t =>
      have hab : (a == star) = (b == star) := by
        rw [Bool.eq_iff_iff, beq_iff_eq, beq_iff_eq, ← (toLower_facts a).2.1,
          ← (toLower_facts b).2.1, (Iff.mp alike_cons h).1.1]
      rw [List.dropWhile_cons, List.dropWhile_cons, ← hab]
      split
      · exact ih h.tail
      · exact h

-- ============================================================================
-- Cursors
-- ============================================================================

theorem AlikeChar.escMatch1 {quoted : Bool} {a b : UInt8} (h : AlikeChar quoted a b) (n : UInt8) :
    escMatch1 quoted a n = escMatch1 quoted b n := by
  have hquest : a = 63 ↔ b = 63 := by
    rw [← show toLower a = 63 ↔ a = 63 from (toLower_facts a).2.2,
      ← show toLower b = 63 ↔ b = 63 from (toLower_facts b).2.2, h.1]
  have hat : a = 64 ↔ b = 64 := by
    rw [← (toLower_special a).2.2.1, ← (toLower_special b).2.2.1, h.1]
  have hhash : a = 35 ↔ b = 35 := by
    rw [← (toLower_special a).2.2.2.1, ← (toLower_special b).2.2.2.1, h.1]
  unfold Bluebox.escMatch1
  cases quoted with
  | false => simp only [Bool.false_eq_true, if_false, hquest, hat, hhash, h.1]
  | true =>
    have hs : a = 115 ↔ b = 115 := by
      have hlow := congrArg (· = (115 : UInt8)) h.1
      simp only [(toLower_special a).2.2.2.2.1, (toLower_special b).2.2.2.2.1] at hlow
      have hS := h.2 rfl
      constructor
      · intro ha
        obtain hb | hb := (Eq.mp hlow (Or.inl ha))
        · exact hb
        · rw [hS.mpr hb] at ha
          cases ha
      · intro hb
        obtain ha | ha := (Eq.mpr hlow (Or.inl hb))
        · exact ha
        · rw [hS.mp ha] at hb
          cases hb
    simp only [if_true, hs, h.1]

/-- Cursors of `match_esc` in masks that look alike; `esc` says that both are behind
    a backslash. -/
structure AlikeCursor (esc : Bool) (c d : EscCursor) : Prop where
  m : Alike esc c.m d.m
  ma : Alike false c.ma d.ma
  n : c.n = d.n
  na : c.na = d.na
  wild : c.wild = d.wild
  quote : c.quote = d.quote

/-- Verdicts that agree, or cursors that go on alike. -/
def AlikeRound (x y : Bool ⊕ EscCursor) : Prop :=
  match x, y with
  | .inl v, .inl w => v = w
  | .inr c, .inr d => AlikeCursor (c.quote == 1) c d ∧ c.quote ≤ 2
  | _, _ => False

/-- The end of a round is the same for both. -/
theorem AlikeCursor.advance {c d : EscCursor} (hquote : c.quote = 0 ∨ c.quote = 2)
    (h : AlikeCursor (c.quote != 0) c d) : AlikeRound c.advance d.advance := by
  have hone : (c.quote == 1) = false := by
    obtain hquote | hquote := hquote
    · rw [hquote]
      rfl
    · rw [hquote]
      rfl
  have hle : c.quote ≤ 2 := by omega
  have hm : Alike false c.m d.m := by
    have hm := h.m
    cases hq : c.quote != 0 with
    | false => rwa [hq] at hm
    | true =>
      rw [hq] at hm
      exact hm.weaken
  unfold EscCursor.advance
  rw [← h.quote, ← h.n, h.m.head.escMatch1, ← h.wild, ← h.na]
  split
  · refine ⟨?_, hle⟩
    show AlikeCursor (c.quote == 1) _ _
    rw [hone]
    exact ⟨hm.tail, h.ma, rfl, rfl, rfl, rfl⟩
  · split
    · exact rfl
    · refine ⟨?_, hle⟩
      show AlikeCursor (c.quote == 1) _ _
      rw [hone]
      exact ⟨h.ma, h.ma, rfl, rfl, rfl, rfl⟩

theorem AlikeCursor.compare {mask mask' : Bytes} (hmask : lower mask = lower mask')
    {c d : EscCursor} (hquote : c.quote = 0 ∨ c.quote = 2) (h : AlikeCursor (c.quote != 0) c d) :
    AlikeRound (c.compare mask) (d.compare mask') := by
  have hends : endsInStar mask = endsInStar mask' := by
    rw [← endsInStar_lower mask, ← endsInStar_lower mask', hmask]
  unfold EscCursor.compare
  simp only [h.m.nil_iff, ← h.n, ← h.quote, ← h.wild, ← hends, ← h.na]
  split
  · split
    · exact rfl
    · split
      · exact rfl
      · rename_i hzero
        split
        · exact rfl
        · split
          · exact rfl
          · refine AlikeCursor.advance hquote ?_
            have hfalse : (c.quote != 0) = false := by simpa using hzero
            dsimp only
            rw [hfalse]
            exact ⟨h.ma, h.ma, rfl, rfl, rfl, rfl⟩
  · split
    · split
      · exact rfl
      · rename_i hzero
        have hm := h.m
        have hfalse : (c.quote != 0) = false := by simpa using hzero
        rw [hfalse] at hm
        show List.isEmpty _ = List.isEmpty _
        rw [Bool.eq_iff_iff, List.isEmpty_iff, List.isEmpty_iff]
        exact hm.dropStars.nil_iff
    · exact AlikeCursor.advance hquote h

/-- A round is the same for both. -/
theorem AlikeCursor.round {mask mask' : Bytes} (hmask : lower mask = lower mask')
    {c d : EscCursor} (hle : c.quote ≤ 2) (h : AlikeCursor (c.quote == 1) c d) :
    AlikeRound (c.round mask) (d.round mask') := by
  have hback : ∀ b : UInt8, toLower b = 92 ↔ b = 92 := fun b => (toLower_special b).2.1
  have hstar : ∀ b : UInt8, toLower b = star ↔ b = star := fun b => (toLower_facts b).2.1
  unfold EscCursor.round
  rw [← h.quote]
  simp only [h.m.head?_iff hback, h.m.head?_iff hstar]
  by_cases hone : c.quote = 1
  · -- behind a backslash
    have hnext : nextQuote c.quote = 2 := by rw [hone]; rfl
    have hm := h.m
    rw [hone] at hm
    rw [hnext, if_neg fun h => absurd h.2 (by decide), if_neg fun h => absurd h.1 (by decide),
      if_neg fun h => absurd h.2 (by decide), if_neg fun h => absurd h.1 (by decide)]
    exact AlikeCursor.compare hmask (Or.inr rfl) ⟨hm, h.ma, h.n, h.na, h.wild, rfl⟩
  · have hnext : nextQuote c.quote = 0 := by
      unfold nextQuote
      split
      · rfl
      · split
        · rfl
        · omega
    have hm : Alike false c.m d.m := by
      have hm := h.m
      rwa [beq_eq_false_iff_ne.mpr hone] at hm
    rw [hnext]
    by_cases hslash : d.m.head? = some 92
    · rw [if_pos ⟨hslash, rfl⟩, if_pos ⟨hslash, rfl⟩]
      refine ⟨?_, Nat.le_succ 1⟩
      exact ⟨hm.tail_quoted ((hm.head?_iff hback).mpr hslash), h.ma, h.n, h.na, h.wild, rfl⟩
    · have hnot : ¬ (d.m.head? = some 92 ∧ (0 : Nat) = 0) := fun h => hslash h.1
      rw [if_neg hnot, if_neg hnot]
      by_cases hhead : d.m.head? = some star
      · have hyes : (0 : Nat) = 0 ∧ d.m.head? = some star := ⟨rfl, hhead⟩
        rw [if_pos hyes, if_pos hyes]
        have hdrop := hm.dropStars
        by_cases hslash' : (c.m.dropWhile (· == star)).head? = some 92
        · rw [if_pos hslash', if_pos ((hdrop.head?_iff hback).mp hslash')]
          by_cases hend : (c.m.dropWhile (· == star)).tail = []
          · rw [if_pos hend, if_pos (hdrop.tail.nil_iff.mp hend)]
            exact rfl
          · rw [if_neg hend, if_neg (mt hdrop.tail.nil_iff.mpr hend)]
            refine ⟨?_, Nat.le_succ 1⟩
            exact ⟨hdrop.tail_quoted hslash', hdrop, h.n, h.n, rfl, rfl⟩
        · rw [if_neg hslash', if_neg (mt (hdrop.head?_iff hback).mpr hslash')]
          refine AlikeCursor.compare hmask (Or.inl rfl) ?_
          exact ⟨hdrop, hdrop, h.n, h.n, rfl, rfl⟩
      · have hnot : ¬ ((0 : Nat) = 0 ∧ d.m.head? = some star) := fun h => hhead h.2
        rw [if_neg hnot, if_neg hnot]
        exact AlikeCursor.compare hmask (Or.inl rfl) ⟨hm, h.ma, h.n, h.na, h.wild, rfl⟩

theorem matchEscLoop_alike {mask mask' : Bytes} (hmask : lower mask = lower mask') (calls : Nat) :
    ∀ {c d : EscCursor}, c.quote ≤ 2 → AlikeCursor (c.quote == 1) c d →
      matchEscLoop mask calls c = matchEscLoop mask' calls d := by
  induction calls with
  | zero => exact fun _ _ => rfl
  | succ calls ih =>
    intro c d hle h
    have hround := AlikeCursor.round hmask hle h
    rw [matchEscLoop, matchEscLoop]
    cases hc : c.round mask with
    | inl v =>
      cases hd : d.round mask' with
      | inl w =>
        rw [hc, hd] at hround
        exact hround
      | inr d' =>
        rw [hc, hd] at hround
        exact hround.elim
    | inr c' =>
      cases hd : d.round mask' with
      | inl w =>
        rw [hc, hd] at hround
        exact hround.elim
      | inr d' =>
        rw [hc, hd] at hround
        exact ih hround.2 hround.1

/-- Masks that look alike match the same names. -/
theorem matchEsc_alike {mask mask' : Bytes} (h : Alike false mask mask') (name : Bytes) :
    matchEsc mask name = matchEsc mask' name := by
  have hstar : mask = [star] ↔ mask' = [star] := by
    have hone : ∀ s : Bytes, s = [star] ↔ s.head? = some star ∧ s.tail = [] := by
      intro s
      cases s with
      | nil => simp
      | cons a s => simp
    rw [hone, hone, h.head?_iff fun b => (toLower_facts b).2.1, h.tail.nil_iff]
  unfold matchEsc
  simp only [hstar]
  split
  · rfl
  · exact matchEscLoop_alike h.lower matchMaxCalls (Nat.zero_le 2) ⟨h, h, rfl, rfl, rfl, rfl⟩

end Bluebox.Spam

/-
  Bluebox.Lib.Pack

  Items packed into lines, in their order: an item that finds the line too full sends it
  off and opens the next one.

  `fill` says how full the line is, from the widths alone; `marked_once_iff` says when the
  items with a mark are all on one line.
-/
import Mathlib.Algebra.GroupWithZero.Nat
import Mathlib.Data.List.Basic

namespace Bluebox.Lib

/-- A fold that may fail, where a part of the state depends on that part alone. -/
theorem foldl_of_foldlM {α β γ δ : Type _} {f : β → α → Option β} {g : γ → δ → γ} (part : β → γ) (pick : α → δ)
    (hstep : ∀ b a b', f b a = some b' → part b' = g (part b) (pick a)) (l : List α) :
    ∀ {b b' : β}, l.foldlM f b = some b' → part b' = (l.map pick).foldl g (part b) := by
  induction l with
  | nil =>
    intro b b' h
    obtain rfl := Option.some.inj h
    rfl
  | cons a l ih =>
    intro b b' h
    rw [List.foldlM_cons] at h
    obtain ⟨b₁, hone, hrest⟩ := Option.bind_eq_some_iff.mp h
    rw [ih hrest, hstep b a b₁ hone]
    rfl

variable {α : Type _} (full : Nat → α → Bool) (width : α → Nat)

/-- How full the line is behind an item. -/
def fill (used : Nat) (a : α) : Nat := (if full used a then 0 else used) + width a

/-- The lines, the last one included; `line` is the one at hand. -/
def packFrom (line : List α) (used : Nat) : List α → List (List α)
  | [] => [line]
  | a :: l =>
    if full used a then line :: packFrom [a] (width a) l
    else packFrom (line ++ [a]) (used + width a) l

/-- No item that opens a line has a marked one before it and is, or has behind it, another. -/
def Together (mark : α → Bool) (used : Nat) (l : List α) : Prop :=
  ∀ before a after, l = before ++ a :: after → before.any mark = true →
    (a :: after).any mark = true → full (before.foldl (fill full width) used) a = false

/-- No line gets as full as `room`. -/
def Within (room used : Nat) (l : List α) : Prop :=
  ∀ before a after, l = before ++ a :: after →
    fill full width (before.foldl (fill full width) used) a < room

/-- Some item opens a line, so one is sent off before the end. -/
def Opens (used : Nat) (l : List α) : Prop :=
  ∃ before a after, l = before ++ a :: after ∧ full (before.foldl (fill full width) used) a = true

variable {full width} {mark : α → Bool}

theorem opens_nil {used : Nat} : ¬ Opens full width used [] := by
  rintro ⟨before, a, after, h, -⟩
  exact absurd (congrArg List.length h) (by simp)

theorem opens_cons {used : Nat} {a : α} {l : List α} :
    Opens full width used (a :: l) ↔ full used a = true ∨ Opens full width (fill full width used a) l := by
  constructor
  · rintro ⟨before, b, after, hl, hfull⟩
    cases before with
    | nil =>
      obtain ⟨rfl, rfl⟩ := List.cons.inj hl
      exact Or.inl hfull
    | cons c before =>
      obtain ⟨rfl, rfl⟩ := List.cons.inj hl
      exact Or.inr ⟨before, b, after, rfl, hfull⟩
  · rintro (hfull | ⟨before, b, after, rfl, hfull⟩)
    · exact ⟨[], a, l, rfl, hfull⟩
    · exact ⟨a :: before, b, after, rfl, hfull⟩

theorem within_cons {room used : Nat} {a : α} {l : List α} :
    Within full width room used (a :: l) ↔
      fill full width used a < room ∧ Within full width room (fill full width used a) l := by
  constructor
  · intro h
    exact ⟨h [] a l rfl, fun before b after hl => h (a :: before) b after (congrArg (a :: ·) hl)⟩
  · intro ⟨hhead, htail⟩ before b after hl
    cases before with
    | nil =>
      obtain ⟨rfl, rfl⟩ := List.cons.inj hl
      exact hhead
    | cons c before =>
      obtain ⟨rfl, rfl⟩ := List.cons.inj hl
      exact htail before b after rfl

/-- A line before which nothing is marked says nothing; a marked line has to be the last. -/
theorem together_cons {used : Nat} {a : α} {l : List α} :
    Together full width mark used (a :: l) ↔
      (mark a = true → ∀ before b after, l = before ++ b :: after →
        (b :: after).any mark = true →
        full (before.foldl (fill full width) (fill full width used a)) b = false) ∧
      (mark a = false → Together full width mark (fill full width used a) l) := by
  constructor
  · intro h
    refine ⟨fun hmark before b after hl hany => ?_, fun _ before b after hl hbefore hany => ?_⟩
    · exact h (a :: before) b after (congrArg (a :: ·) hl) (by rw [List.any_cons, hmark]; rfl) hany
    · refine h (a :: before) b after (congrArg (a :: ·) hl) ?_ hany
      rw [List.any_cons, hbefore, Bool.or_true]
  · intro ⟨hmarked, hclear⟩ before b after hl hbefore hany
    cases before with
    | nil => cases hbefore
    | cons c before =>
      obtain ⟨rfl, rfl⟩ := List.cons.inj hl
      by_cases hmark : mark a = true
      · exact hmarked hmark before b after rfl hany
      · rw [List.any_cons, Bool.eq_false_iff.mpr hmark, Bool.false_or] at hbefore
        exact hclear (Bool.eq_false_iff.mpr hmark) before b after rfl hbefore hany

/-- How many lines have a marked item. -/
def markedLines (mark : α → Bool) (lines : List (List α)) : Nat := lines.countP fun l => l.any mark

theorem markedLines_cons (line : List α) (lines : List (List α)) :
    markedLines mark (line :: lines) = markedLines mark lines + if line.any mark then 1 else 0 :=
  List.countP_cons

/-- The line at hand and every marked item are on some line. -/
theorem markedLines_pos (l : List α) : ∀ (line : List α) (used : Nat),
    (line ++ l).any mark = true → 0 < markedLines mark (packFrom full width line used l) := by
  induction l with
  | nil =>
    intro line used h
    rw [List.append_nil] at h
    rw [packFrom, markedLines_cons, if_pos h]
    omega
  | cons a l ih =>
    intro line used h
    rw [packFrom]
    by_cases hfull : full used a = true
    · rw [if_pos hfull, markedLines_cons]
      by_cases hline : line.any mark = true
      · rw [if_pos hline]
        omega
      · rw [List.any_append, Bool.eq_false_iff.mpr hline, Bool.false_or] at h
        have := ih [a] (width a) h
        omega
    · rw [if_neg hfull]
      exact ih _ _ (by rwa [List.append_assoc])

theorem markedLines_zero (l : List α) : ∀ (line : List α) (used : Nat),
    (line ++ l).any mark = false → markedLines mark (packFrom full width line used l) = 0 := by
  induction l with
  | nil =>
    intro line used h
    rw [List.append_nil] at h
    rw [packFrom, markedLines_cons, if_neg (by rw [h]; decide)]
    rfl
  | cons a l ih =>
    intro line used h
    rw [packFrom]
    by_cases hfull : full used a = true
    · rw [List.any_append, Bool.or_eq_false_iff] at h
      rw [if_pos hfull, markedLines_cons, if_neg (by rw [h.1]; decide), ih [a] _ h.2]
    · rw [if_neg hfull]
      exact ih _ _ (by rwa [List.append_assoc])

/-- With a marked item on the line at hand: no line may be opened before the last marked one. -/
theorem markedLines_one_of_marked (l : List α) : ∀ (line : List α) (used : Nat),
    line.any mark = true →
    (markedLines mark (packFrom full width line used l) = 1 ↔
      ∀ before b after, l = before ++ b :: after → (b :: after).any mark = true →
        full (before.foldl (fill full width) used) b = false) := by
  induction l with
  | nil =>
    intro line used h
    rw [packFrom, markedLines_cons, if_pos h]
    exact ⟨fun _ before b after hl => absurd hl (by cases before <;> nofun), fun _ => rfl⟩
  | cons a l ih =>
    intro line used h
    rw [packFrom]
    by_cases hfull : full used a = true
    · rw [if_pos hfull, markedLines_cons, if_pos h]
      constructor
      · intro hone before b after hl hany
        have hzero : markedLines mark (packFrom full width [a] (width a) l) = 0 := by omega
        -- Nothing from here on is marked, or another line would be.
        by_cases hmarked : (a :: l).any mark = true
        · have hpos := @markedLines_pos α full width mark l [a] (width a) hmarked
          omega
        · rw [hl, List.any_append, hany, Bool.or_true] at hmarked
          exact absurd rfl hmarked
      · intro hall
        by_cases hmarked : (a :: l).any mark = true
        · have := hall [] a l rfl hmarked
          exact absurd (this.symm.trans hfull) (by decide)
        · rw [markedLines_zero l [a] (width a) (Bool.eq_false_iff.mpr hmarked)]
    · have hopen : full used a = false := Bool.eq_false_iff.mpr hfull
      have hfill : fill full width used a = used + width a := by rw [fill, if_neg hfull]
      rw [if_neg hfull, ih _ _ (by rw [List.any_append, h]; rfl), ← hfill]
      constructor
      · intro hall before b after hl hany
        cases before with
        | nil =>
          obtain ⟨rfl, rfl⟩ := List.cons.inj hl
          exact hopen
        | cons c before =>
          obtain ⟨rfl, rfl⟩ := List.cons.inj hl
          exact hall before b after rfl hany
      · intro hall before b after hl hany
        exact hall (a :: before) b after (congrArg (a :: ·) hl) hany

/-- The marked items are all on one line iff no line is opened between two of them. -/
theorem marked_once_iff (l : List α) : ∀ (line : List α) (used : Nat), line.any mark = false →
    l.any mark = true →
    (markedLines mark (packFrom full width line used l) = 1 ↔ Together full width mark used l) := by
  induction l with
  | nil =>
    intro line used _ hl
    cases hl
  | cons a l ih =>
    intro line used hline hl
    rw [packFrom, together_cons]
    have hstep : ∀ (line' : List α), line'.any mark = false →
        (markedLines mark (packFrom full width (line' ++ [a]) (fill full width used a) l) = 1 ↔
          (mark a = true → ∀ before b after, l = before ++ b :: after →
            (b :: after).any mark = true →
            full (before.foldl (fill full width) (fill full width used a)) b = false) ∧
          (mark a = false → Together full width mark (fill full width used a) l)) := by
      intro line' hline'
      by_cases hmark : mark a = true
      · rw [markedLines_one_of_marked l _ _ (by simp [hmark])]
        exact ⟨fun h => ⟨fun _ => h, fun hn => absurd (hmark.symm.trans hn) (by decide)⟩,
          fun h => h.1 hmark⟩
      · have hmark : mark a = false := Bool.eq_false_iff.mpr hmark
        rw [List.any_cons, hmark, Bool.false_or] at hl
        rw [ih _ _ (by simp [hline', hmark]) hl]
        exact ⟨fun h => ⟨fun hn => absurd (hmark.symm.trans hn) (by decide), fun _ => h⟩,
          fun h => h.2 hmark⟩
    by_cases hfull : full used a = true
    · have hfill : fill full width used a = width a := by rw [fill, if_pos hfull, Nat.zero_add]
      rw [if_pos hfull, markedLines_cons, if_neg (by rw [hline]; decide), Nat.add_zero, ← hfill]
      exact hstep [] rfl
    · have hfill : fill full width used a = used + width a := by rw [fill, if_neg hfull]
      rw [if_neg hfull, ← hfill]
      exact hstep line hline

/-- No item is lost, and they stay in order. -/
theorem flatten_packFrom (l : List α) : ∀ (line : List α) (used : Nat),
    (packFrom full width line used l).flatten = line ++ l := by
  induction l with
  | nil =>
    intro line used
    rw [packFrom, List.flatten_singleton, List.append_nil]
  | cons a l ih =>
    intro line used
    rw [packFrom]
    by_cases hfull : full used a = true
    · rw [if_pos hfull, List.flatten_cons, ih]
      rfl
    · rw [if_neg hfull, ih, List.append_assoc]
      rfl

/-- What holds of a line that is opened, and of a line that takes one more item, holds of all
    lines. -/
theorem packFrom_invariant {P : List α → Nat → Prop} (l : List α) (hopen : ∀ a ∈ l, P [a] (width a))
    (htake : ∀ line used, ∀ a ∈ l, P line used → full used a = false → P (line ++ [a]) (used + width a)) :
    ∀ (line : List α) (used : Nat), P line used →
      ∀ r ∈ packFrom full width line used l, ∃ n, P r n := by
  induction l with
  | nil =>
    intro line used hline r hr
    rw [packFrom, List.mem_singleton] at hr
    exact ⟨used, hr ▸ hline⟩
  | cons a l ih =>
    intro line used hline
    have ih' := ih (fun b hb => hopen b (List.mem_cons_of_mem a hb))
      fun line used b hb => htake line used b (List.mem_cons_of_mem a hb)
    rw [packFrom]
    by_cases hfull : full used a = true
    · rw [if_pos hfull, List.forall_mem_cons]
      exact ⟨⟨used, hline⟩, ih' [a] (width a) (hopen a List.mem_cons_self)⟩
    · rw [if_neg hfull]
      exact ih' _ _ (htake line used a List.mem_cons_self hline (Bool.eq_false_iff.mpr hfull))

/-- Where an item finds a line too full exactly when it would fill the room, no line is fuller, and
    none is empty. -/
theorem packFrom_fits {room : Nat} {l : List α} (hne : l ≠ []) (hone : ∀ a ∈ l, width a < room)
    (hfull : ∀ used a, full used a = false ↔ used + width a < room) :
    ∀ r ∈ packFrom full width [] 0 l, r ≠ [] ∧ (r.map width).sum < room := by
  obtain ⟨a, l, rfl⟩ := List.exists_cons_of_ne_nil hne
  have hsingle : ∀ b, ([b].map width).sum = width b := fun b => by
    rw [List.map_singleton, List.sum_singleton]
  have hfirst : full 0 a = false := (hfull 0 a).mpr (by rw [Nat.zero_add]; exact hone a List.mem_cons_self)
  rw [packFrom, if_neg (by rw [hfirst]; exact Bool.false_ne_true), List.nil_append, Nat.zero_add]
  intro r hr
  obtain ⟨n, hn⟩ := packFrom_invariant
    (P := fun line used => line ≠ [] ∧ used = (line.map width).sum ∧ used < room) l
    (fun b hb => ⟨List.cons_ne_nil _ _, (hsingle b).symm, hone b (List.mem_cons_of_mem _ hb)⟩)
    (fun line used b _ hinv hopen => ⟨List.append_ne_nil_of_right_ne_nil _ (List.cons_ne_nil _ _), by
      rw [List.map_append, List.sum_append, hsingle, hinv.2.1], (hfull used b).mp hopen⟩)
    [a] (width a) ⟨List.cons_ne_nil _ _, (hsingle a).symm, hone a List.mem_cons_self⟩ r hr
  exact ⟨hn.1, hn.2.1 ▸ hn.2.2⟩

/-- A line with an item has room for one. -/
theorem room_pos_of_within {room used : Nat} {l : List α} (hne : l ≠ []) (h : Within full width room used l) :
    0 < room := by
  obtain ⟨a, l, rfl⟩ := List.exists_cons_of_ne_nil hne
  exact Nat.lt_of_le_of_lt (Nat.zero_le _) (h [] a l rfl)

/-- Where no line gets as full as the room, none of them is. -/
theorem packFrom_within {room : Nat} (l : List α) : ∀ (line : List α) (used : Nat), (line.map width).sum = used →
    used < room → Within full width room used l → ∀ r ∈ packFrom full width line used l, (r.map width).sum < room := by
  induction l with
  | nil =>
    intro line used hsum hused _ r hr
    rw [packFrom, List.mem_singleton] at hr
    rwa [hr, hsum]
  | cons a l ih =>
    intro line used hsum hused hwithin
    obtain ⟨hfill, hrest⟩ := within_cons.mp hwithin
    have hsingle : ([a].map width).sum = width a := by rw [List.map_singleton, List.sum_singleton]
    rw [packFrom]
    by_cases hfull : full used a = true
    · rw [fill, if_pos hfull, Nat.zero_add] at hfill hrest
      rw [if_pos hfull, List.forall_mem_cons]
      exact ⟨hsum ▸ hused, ih [a] (width a) hsingle hfill hrest⟩
    · rw [fill, if_neg hfull] at hfill hrest
      rw [if_neg hfull]
      exact ih _ _ (by rw [List.map_append, List.sum_append, hsingle, hsum]) hfill hrest

/-- Where the first item finds room, no line is empty. -/
theorem packFrom_ne_nil {l : List α} (hne : l ≠ []) (hfirst : ∀ a, full 0 a = false) :
    ∀ r ∈ packFrom full width [] 0 l, r ≠ [] := by
  obtain ⟨a, l, rfl⟩ := List.exists_cons_of_ne_nil hne
  rw [packFrom, if_neg (by rw [hfirst]; exact Bool.false_ne_true), List.nil_append]
  intro r hr
  obtain ⟨-, hr⟩ := packFrom_invariant (P := fun line _ => line ≠ []) l (fun b _ => List.cons_ne_nil b [])
    (fun line used b _ _ _ => List.append_ne_nil_of_right_ne_nil line (List.cons_ne_nil b []))
    [a] _ (List.cons_ne_nil a []) r hr
  exact hr

end Bluebox.Lib

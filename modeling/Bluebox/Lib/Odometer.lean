/-
  Bluebox.Lib.Odometer

  Counters made of wheels, the slowest wheel first.  A tick turns the last wheel; a
  wheel that goes over its last mark returns to its first one and turns the wheel
  before it.

  The marks need not be numbers and the wheels need not have equally many of them, so
  the value of a reading is a number in mixed radix.
-/
import Mathlib.Data.List.Forall2
import Mathlib.Logic.Function.Iterate

namespace Bluebox.Lib

variable {α : Type _}

-- ============================================================================
-- Wheels
-- ============================================================================

/-- A wheel: the mark it starts with and the mark that follows another one, `none`
    where the wheel goes over.  `rank` counts the marks that are on it. -/
structure Wheel (α : Type _) where
  first : α
  next : α → Option α
  size : Nat
  On : α → Prop
  rank : α → Nat
  on_first : On first
  rank_first : rank first = 0
  next_some : ∀ {a b}, On a → next a = some b → On b ∧ rank b = rank a + 1
  next_none : ∀ {a}, On a → next a = none → rank a + 1 = size

/-- The reading has one mark of each wheel. -/
def Reading (ws : List (Wheel α)) (as : List α) : Prop :=
  List.Forall₂ (fun w a => w.On a) ws as

/-- All wheels at their first mark. -/
def zeros (ws : List (Wheel α)) : List α := ws.map (·.first)

/-- How many readings there are. -/
def capacity : List (Wheel α) → Nat
  | [] => 1
  | w :: ws => w.size * capacity ws

/-- The number a reading stands for. -/
def value : List (Wheel α) → List α → Nat
  | w :: ws, a :: as => w.rank a * capacity ws + value ws as
  | _, _ => 0

/-- One tick, and if the slowest wheel went over. -/
def tick : List (Wheel α) → List α → List α × Bool
  | w :: ws, a :: as =>
    if (tick ws as).2 then
      match w.next a with
      | some b => (b :: (tick ws as).1, false)
      | none => (w.first :: (tick ws as).1, true)
    else (a :: (tick ws as).1, false)
  | _, _ => ([], true)

theorem reading_zeros (ws : List (Wheel α)) : Reading ws (zeros ws) := by
  induction ws with
  | nil => exact List.Forall₂.nil
  | cons w ws ih => exact List.Forall₂.cons w.on_first ih

theorem value_zeros (ws : List (Wheel α)) : value ws (zeros ws) = 0 := by
  induction ws with
  | nil => rfl
  | cons w ws ih =>
    show w.rank w.first * capacity ws + value ws (zeros ws) = 0
    rw [w.rank_first, ih]
    omega

/-- On equal wheels every mark is one of theirs. -/
theorem Reading.on_replicate {w : Wheel α} {n : Nat} {as : List α}
    (h : Reading (List.replicate n w) as) : ∀ a ∈ as, w.On a := by
  induction n generalizing as with
  | zero =>
    cases h
    exact fun a ha => absurd ha List.not_mem_nil
  | succ n ih =>
    obtain ⟨b, bs, hb, hbs, rfl⟩ := List.forall₂_cons_left_iff.mp h
    intro a ha
    rcases List.mem_cons.mp ha with rfl | ha
    · exact hb
    · exact ih hbs a ha

-- ============================================================================
-- Ticks
-- ============================================================================

/-- A tick adds one, and takes the capacity away where the slowest wheel goes over. -/
theorem tick_value {ws : List (Wheel α)} {as : List α} (h : Reading ws as) :
    Reading ws (tick ws as).1 ∧
      value ws (tick ws as).1 + (if (tick ws as).2 then capacity ws else 0) =
        value ws as + 1 := by
  induction h with
  | nil => exact ⟨List.Forall₂.nil, rfl⟩
  | @cons w a ws as hon hrest ih =>
    obtain ⟨hread, hval⟩ := ih
    unfold tick
    by_cases hcarry : (tick ws as).2 = true
    · rw [if_pos hcarry]
      rw [if_pos hcarry] at hval
      cases hnext : w.next a with
      | some b =>
        obtain ⟨hb, hrank⟩ := w.next_some hon hnext
        refine ⟨List.Forall₂.cons hb hread, ?_⟩
        show w.rank b * capacity ws + value ws (tick ws as).1 + 0 =
          w.rank a * capacity ws + value ws as + 1
        have hmul : (w.rank a + 1) * capacity ws = w.rank a * capacity ws + capacity ws :=
          Nat.succ_mul _ _
        rw [hrank]
        omega
      | none =>
        refine ⟨List.Forall₂.cons w.on_first hread, ?_⟩
        show w.rank w.first * capacity ws + value ws (tick ws as).1 + w.size * capacity ws =
          w.rank a * capacity ws + value ws as + 1
        have hmul : (w.rank a + 1) * capacity ws = w.rank a * capacity ws + capacity ws :=
          Nat.succ_mul _ _
        rw [w.rank_first, ← w.next_none hon hnext]
        omega
    · rw [if_neg hcarry]
      rw [if_neg hcarry] at hval
      refine ⟨List.Forall₂.cons hon hread, ?_⟩
      show w.rank a * capacity ws + value ws (tick ws as).1 + 0 =
        w.rank a * capacity ws + value ws as + 1
      omega

/-- As long as the ticks do not exhaust the readings, they count. -/
theorem ticks_value (ws : List (Wheel α)) (n : Nat) (h : n < capacity ws) :
    Reading ws ((fun as => (tick ws as).1)^[n] (zeros ws)) ∧
      value ws ((fun as => (tick ws as).1)^[n] (zeros ws)) = n := by
  induction n with
  | zero => exact ⟨reading_zeros ws, value_zeros ws⟩
  | succ n ih =>
    obtain ⟨hread, hval⟩ := ih (by omega)
    rw [Function.iterate_succ_apply']
    obtain ⟨hread', hval'⟩ := tick_value hread
    refine ⟨hread', ?_⟩
    -- Going over would take the whole capacity away.
    by_cases hcarry : (tick ws ((fun as => (tick ws as).1)^[n] (zeros ws))).2 = true
    · rw [if_pos hcarry] at hval'
      omega
    · rw [if_neg hcarry] at hval'
      omega

end Bluebox.Lib

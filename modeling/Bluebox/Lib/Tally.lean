/-
  Bluebox.Lib.Tally

  How many elements of a list have a property, as an integer, and how one change moves it.
-/
import Mathlib.Data.List.Nodup
import Mathlib.Logic.Function.Basic
import Mathlib.Algebra.Order.Ring.Int

namespace Bluebox.Lib

variable {α β : Type _}

/-- How many elements of a list have a property of their value. -/
def tally (p : β → Bool) (f : α → β) (l : List α) : Int := (l.countP fun x => p (f x) : Nat)

/-- A truth value as a number. -/
def one (b : Bool) : Int := if b then 1 else 0

variable {p : β → Bool} {f : α → β} {l : List α} {x : α}

theorem tally_cons (p : β → Bool) (f : α → β) (x : α) (l : List α) :
    tally p f (x :: l) = tally p f l + one (p (f x)) := by
  unfold tally one
  rw [List.countP_cons]
  split
  · exact Int.natCast_succ _
  · exact (Int.add_zero _).symm

theorem tally_concat (p : β → Bool) (f : α → β) (l : List α) (x : α) :
    tally p f (l ++ [x]) = tally p f l + one (p (f x)) := by
  unfold tally
  rw [List.countP_append, Int.natCast_add]
  have hone := tally_cons p f x []
  unfold tally at hone
  rw [hone, List.countP_nil, Int.natCast_zero, Int.zero_add]

theorem tally_erase [DecidableEq α] (p : β → Bool) (f : α → β) (h : x ∈ l) :
    tally p f (l.erase x) = tally p f l - one (p (f x)) := by
  have hperm : tally p f l = tally p f (x :: l.erase x) := by
    unfold tally
    rw [(List.perm_cons_erase h).countP_eq]
  rw [hperm, tally_cons]
  omega

theorem tally_congr {g : α → β} (h : ∀ y ∈ l, p (f y) = p (g y)) : tally p f l = tally p g l := by
  unfold tally
  rw [List.countP_congr]
  intro y hy
  rw [h y hy]

theorem tally_update_of_not_mem [DecidableEq α] (p : β → Bool) (f : α → β) (h : x ∉ l) (v : β) :
    tally p (Function.update f x v) l = tally p f l := by
  refine tally_congr fun y hy => ?_
  have hne : y ≠ x := fun heq => h (heq ▸ hy)
  rw [Function.update_of_ne hne]

/-- The value of one element changes. -/
theorem tally_update [DecidableEq α] (p : β → Bool) (f : α → β) (hnodup : l.Nodup) (h : x ∈ l) (v : β) :
    tally p (Function.update f x v) l = tally p f l - one (p (f x)) + one (p v) := by
  have hnot : x ∉ l.erase x := hnodup.not_mem_erase
  have hrest := tally_update_of_not_mem p f hnot v
  rw [tally_erase p f h] at hrest
  rw [tally_erase p _ h, Function.update_self] at hrest
  omega

end Bluebox.Lib

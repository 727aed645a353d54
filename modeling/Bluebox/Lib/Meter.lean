/-
  Bluebox.Lib.Meter

  Rate limits: a machine that lets some of its calls pass, and a potential that says how
  many more could pass.  Time adds to the potential no faster than one for each unit, and a
  call that passes takes its cost from it.  Then in no interval more calls pass than the
  largest potential and the length of the interval pay for (`Meter.window`).
-/
import Mathlib.Data.List.Count
import Mathlib.Algebra.Order.Ring.Int

namespace Bluebox.Lib

section Calls

variable {σ α : Type} (time : α → Int) (step : σ → α → σ × Bool)

/-- The state after some calls. -/
def stateAfter (s : σ) (l : List α) : σ := l.foldl (fun s a => (step s a).1) s

/-- How many calls pass from `t₀` to `t₁`. -/
def passedIn (t₀ t₁ : Int) : σ → List α → Nat
  | _, [] => 0
  | s, a :: l =>
    (if (step s a).2 && decide (t₀ ≤ time a ∧ time a ≤ t₁) then 1 else 0) + passedIn t₀ t₁ (step s a).1 l

/-- The calls come at non-decreasing times, from a time on. -/
def TimedFrom (t : Int) (l : List α) : Prop := (t :: l.map time).Pairwise (· ≤ ·)

variable {time step} {s : σ} {t t₀ t₁ : Int} {a : α} {l : List α}

theorem timedFrom_cons : TimedFrom time t (a :: l) ↔ t ≤ time a ∧ TimedFrom time (time a) l := by
  unfold TimedFrom
  rw [List.map_cons, List.pairwise_cons, List.pairwise_cons]
  constructor
  · rintro ⟨hle, hrest⟩
    exact ⟨hle _ List.mem_cons_self, hrest⟩
  · rintro ⟨hle, hfrom, hrest⟩
    refine ⟨fun b hb => ?_, hfrom, hrest⟩
    obtain rfl | hb := List.mem_cons.mp hb
    · exact hle
    · exact hle.trans (hfrom b hb)

/-- Calls at non-decreasing times come from the time of the first one on. -/
theorem exists_timedFrom (h : (l.map time).Pairwise (· ≤ ·)) : ∃ t, TimedFrom time t l := by
  cases l with
  | nil => exact ⟨0, List.pairwise_singleton ..⟩
  | cons a l =>
    refine ⟨time a, timedFrom_cons.mpr ⟨le_refl _, ?_⟩⟩
    rwa [List.map_cons] at h

/-- After the end of the interval nothing counts. -/
theorem passedIn_late (htimed : TimedFrom time t l) (hlate : t₁ < t) : passedIn time step t₀ t₁ s l = 0 := by
  induction l generalizing s t with
  | nil => rfl
  | cons a l ih =>
    obtain ⟨hle, hrest⟩ := timedFrom_cons.mp htimed
    have hin : decide (t₀ ≤ time a ∧ time a ≤ t₁) = false := decide_eq_false fun hin => by omega
    unfold passedIn
    rw [hin, Bool.and_false, ih hrest (by omega)]
    rfl

end Calls

/-- A machine with a potential.  `Good` says which calls come, and `Ok` what holds of the
    state at a time. -/
structure Meter (σ α : Type) where
  time : α → Int
  step : σ → α → σ × Bool
  Good : α → Prop
  Ok : σ → Int → Prop
  credit : σ → Int → Int
  cost : Int
  bound : Int
  ok_mono : ∀ {s t t'}, Ok s t → t ≤ t' → Ok s t'
  ok_step : ∀ {s a}, Good a → Ok s (time a) → Ok (step s a).1 (time a)
  credit_nonneg : ∀ {s t}, Ok s t → 0 ≤ credit s t
  credit_le : ∀ {s t}, Ok s t → credit s t ≤ bound
  credit_grow : ∀ {s t t'}, Ok s t → t ≤ t' → credit s t' ≤ credit s t + (t' - t)
  credit_step : ∀ {s a}, Good a → Ok s (time a) →
    credit (step s a).1 (time a) + (if (step s a).2 then cost else 0) ≤ credit s (time a)

namespace Meter

variable {σ α : Type} {m : Meter σ α} {s : σ} {t t₀ t₁ : Int} {l : List α}

/-- What holds of the state holds after a run. -/
theorem run_ok (hok : m.Ok s t) (hgood : ∀ a ∈ l, m.Good a) (htimed : TimedFrom m.time t l) :
    ∃ t', m.Ok (stateAfter m.step s l) t' := by
  induction l generalizing s t with
  | nil => exact ⟨t, hok⟩
  | cons a l ih =>
    obtain ⟨hle, hrest⟩ := timedFrom_cons.mp htimed
    exact ih (m.ok_step (hgood a List.mem_cons_self) (m.ok_mono hok hle))
      (fun b hb => hgood b (List.mem_cons_of_mem a hb)) hrest

/-- From a time in the interval on, what passes is paid by the potential and by the time. -/
theorem passed_le (hok : m.Ok s t) (hgood : ∀ a ∈ l, m.Good a) (htimed : TimedFrom m.time t l) (ht₀ : t₀ ≤ t)
    (ht₁ : t ≤ t₁) : m.cost * passedIn m.time m.step t₀ t₁ s l ≤ m.credit s t + (t₁ - t) := by
  induction l generalizing s t with
  | nil =>
    have hnonneg := m.credit_nonneg hok
    show m.cost * 0 ≤ _
    omega
  | cons a l ih =>
    have hlater := timedFrom_cons.mp htimed
    by_cases hlate : m.time a ≤ t₁
    · have ha := hgood a List.mem_cons_self
      have hok' := m.ok_mono hok hlater.1
      have hgrow := m.credit_grow hok hlater.1
      have hstep := m.credit_step ha hok'
      have hih := ih (m.ok_step ha hok') (fun b hb => hgood b (List.mem_cons_of_mem a hb)) hlater.2
        (ht₀.trans hlater.1) hlate
      have hin : decide (t₀ ≤ m.time a ∧ m.time a ≤ t₁) = true := decide_eq_true ⟨ht₀.trans hlater.1, hlate⟩
      unfold passedIn
      rw [hin, Bool.and_true, Nat.cast_add, Int.mul_add]
      by_cases hpass : (m.step s a).2 = true
      · rw [if_pos hpass] at hstep
        rw [if_pos hpass, Nat.cast_one, Int.mul_one]
        omega
      · rw [if_neg hpass] at hstep
        rw [if_neg hpass, Nat.cast_zero, Int.mul_zero]
        omega
    · have hnonneg := m.credit_nonneg hok
      have htimed' : TimedFrom m.time (m.time a) (a :: l) := timedFrom_cons.mpr ⟨le_refl _, hlater.2⟩
      rw [passedIn_late htimed' (not_le.mp hlate), Nat.cast_zero, Int.mul_zero]
      omega

/-- In no interval more calls pass than the largest potential and its length pay for. -/
theorem window (hok : m.Ok s t) (hgood : ∀ a ∈ l, m.Good a) (htimed : TimedFrom m.time t l) (h : t₀ ≤ t₁)
    (hbound : 0 ≤ m.bound) : m.cost * passedIn m.time m.step t₀ t₁ s l ≤ m.bound + (t₁ - t₀) := by
  induction l generalizing s t with
  | nil =>
    show m.cost * 0 ≤ _
    omega
  | cons a l ih =>
    obtain ⟨hle, hrest⟩ := timedFrom_cons.mp htimed
    have ha := hgood a List.mem_cons_self
    have hok' := m.ok_mono hok hle
    by_cases hearly : m.time a < t₀
    · -- a call before the interval does not count
      have hin : decide (t₀ ≤ m.time a ∧ m.time a ≤ t₁) = false := decide_eq_false fun hin => by omega
      unfold passedIn
      rw [hin, Bool.and_false, if_neg Bool.false_ne_true, Nat.zero_add]
      exact ih (m.ok_step ha hok') (fun b hb => hgood b (List.mem_cons_of_mem a hb)) hrest
    · have htimed' : TimedFrom m.time (m.time a) (a :: l) := timedFrom_cons.mpr ⟨le_refl _, hrest⟩
      by_cases hlate : m.time a ≤ t₁
      · have hpaid := passed_le hok' hgood htimed' (not_lt.mp hearly) hlate
        have hcredit := m.credit_le hok'
        omega
      · rw [passedIn_late htimed' (not_le.mp hlate), Nat.cast_zero, Int.mul_zero]
        omega

end Meter

end Bluebox.Lib

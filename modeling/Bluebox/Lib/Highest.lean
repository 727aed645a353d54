/-
  Bluebox.Lib.Highest

  A search that carries the best stamp so far through several lists.  Each list has its
  own test; a record that passes it replaces the best one if its stamp is higher.

  `Best` is the invariant: the stamp is a bound for all records seen, and it is the lowest
  one or that of a record seen.
-/
import Mathlib.Order.BoundedOrder.Lattice
import Mathlib.Tactic.Tauto

namespace Bluebox.Lib

variable {ρ κ β : Type _} [LinearOrder κ] [OrderBot κ]

/-- A record takes the place of the best one. -/
def raise (p : ρ → Bool) (stamp : ρ → κ) (val : ρ → β) (best : κ × Option β) (r : ρ) : κ × Option β :=
  if p r = true ∧ best.1 < stamp r then (stamp r, some (val r)) else best

/-- What has been found among the records seen. -/
structure Best (stamp : ρ → κ) (val : ρ → β) (seen : ρ → Prop) (best : κ × Option β) : Prop where
  bound : ∀ r, seen r → stamp r ≤ best.1
  found : best = (⊥, none) ∨ ∃ r, seen r ∧ best = (stamp r, some (val r))

variable {stamp : ρ → κ} {val : ρ → β} {seen seen' : ρ → Prop} {best : κ × Option β}

theorem Best.none : Best stamp val (fun _ => False) (⊥, Option.none) :=
  ⟨fun _ h => h.elim, Or.inl rfl⟩

theorem Best.congr (h : Best stamp val seen best) (hiff : ∀ x, seen x ↔ seen' x) :
    Best stamp val seen' best :=
  ⟨fun r hr => h.bound r ((hiff r).mpr hr),
    h.found.imp_right fun ⟨r, hr, heq⟩ => ⟨r, (hiff r).mp hr, heq⟩⟩

/-- One record. -/
theorem Best.raise (h : Best stamp val seen best) (p : ρ → Bool) (r : ρ) :
    Best stamp val (fun x => seen x ∨ (x = r ∧ p x = true)) (Lib.raise p stamp val best r) := by
  unfold Lib.raise
  by_cases hup : p r = true ∧ best.1 < stamp r
  · rw [if_pos hup]
    refine ⟨fun x hx => ?_, Or.inr ⟨r, Or.inr ⟨rfl, hup.1⟩, rfl⟩⟩
    rcases hx with hx | ⟨rfl, -⟩
    · exact le_of_lt (lt_of_le_of_lt (h.bound x hx) hup.2)
    · exact le_refl _
  · rw [if_neg hup]
    refine ⟨fun x hx => ?_, h.found.imp_right fun ⟨y, hy, heq⟩ => ⟨y, Or.inl hy, heq⟩⟩
    rcases hx with hx | ⟨rfl, hp⟩
    · exact h.bound x hx
    · exact not_lt.mp fun hlt => hup ⟨hp, hlt⟩

/-- A list. -/
theorem Best.foldl (p : ρ → Bool) (l : List ρ) : ∀ {seen : ρ → Prop} {best : κ × Option β},
    Best stamp val seen best →
    Best stamp val (fun x => seen x ∨ (x ∈ l ∧ p x = true)) (l.foldl (Lib.raise p stamp val) best) := by
  induction l with
  | nil =>
    intro seen best h
    refine h.congr fun x => ⟨Or.inl, ?_⟩
    rintro (hx | ⟨hx, -⟩)
    · exact hx
    · exact absurd hx List.not_mem_nil
  | cons r l ih =>
    intro seen best h
    refine (ih (h.raise p r)).congr fun x => ?_
    rw [List.mem_cons]
    tauto

/-- Several lists with one test. -/
theorem Best.foldl_chains {ι : Type _} (p : ρ → Bool) (chain : ι → List ρ) (ks : List ι) :
    ∀ {seen : ρ → Prop} {best : κ × Option β}, Best stamp val seen best →
    Best stamp val (fun x => seen x ∨ ((∃ k ∈ ks, x ∈ chain k) ∧ p x = true))
      (ks.foldl (fun best k => (chain k).foldl (Lib.raise p stamp val) best) best) := by
  induction ks with
  | nil =>
    intro seen best h
    refine h.congr fun x => ⟨Or.inl, ?_⟩
    rintro (hx | ⟨⟨k, hk, -⟩, -⟩)
    · exact hx
    · exact absurd hk List.not_mem_nil
  | cons k ks ih =>
    intro seen best h
    refine (ih (h.foldl p (chain k))).congr fun x => ?_
    have hcons : (∃ j ∈ k :: ks, x ∈ chain j) ↔ x ∈ chain k ∨ ∃ j ∈ ks, x ∈ chain j := by
      simp only [List.mem_cons, or_and_right, exists_or, exists_eq_left]
    rw [hcons]
    tauto

/-- Nothing was seen. -/
theorem Best.snd_of_empty (h : Best stamp val seen best) (hnone : ∀ r, ¬ seen r) : best.2 = Option.none := by
  rcases h.found with heq | ⟨r, hr, -⟩
  · rw [heq]
  · exact absurd hr (hnone r)

/-- A record that was seen and whose stamp no other one reaches has been found. -/
theorem Best.snd_of_highest (h : Best stamp val seen best) {r : ρ} (hr : seen r) (hpos : ⊥ < stamp r)
    (hhigh : ∀ x, seen x → stamp r ≤ stamp x → x = r) : best.2 = some (val r) := by
  rcases h.found with heq | ⟨x, hx, heq⟩
  · have hle := h.bound r hr
    rw [heq] at hle
    exact absurd hle (not_le.mpr hpos)
  · have hle := h.bound r hr
    rw [heq] at hle
    rw [heq, hhigh x hx hle]

end Bluebox.Lib

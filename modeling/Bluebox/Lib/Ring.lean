/-
  Bluebox.Lib.Ring

  Handing out the slots of a ring: turn after turn the next slot is looked at; one that
  is held is passed over, one that is free is taken, and slots are given back at any
  time.

  A slot comes again when the ring has been gone round.  `Ring.Since.turn_lt` says how
  soon that can be: not before the slots taken since and those that were held at the
  time are as many as the ring has.
-/
import Mathlib.Data.List.Basic
import Mathlib.Data.List.Nodup
import Mathlib.Data.List.Perm.Subperm
import Mathlib.Logic.Function.Basic

namespace Bluebox.Lib

/-- The turn that was the last, and the turn at which each slot that is held was taken. -/
structure Ring where
  turn : Nat
  held : Nat → Option Nat

namespace Ring

/-- Nothing is held. -/
def start : Ring := ⟨0, fun _ => none⟩

/-- Turns at which nothing is taken. -/
def pass (k : Nat) (r : Ring) : Ring := { r with turn := r.turn + k }

/-- A turn at which the slot is taken. -/
def take (n : Nat) (r : Ring) : Ring :=
  ⟨r.turn + 1, Function.update r.held ((r.turn + 1) % n) (some (r.turn + 1))⟩

/-- Slots are given back, all but some. -/
def keep (p : Nat → Bool) (r : Ring) : Ring := { r with held := fun s => if p s then r.held s else none }

/-- A slot is held since a turn of its own that has been. -/
def Ok (n : Nat) (r : Ring) : Prop := ∀ s v, r.held s = some v → v % n = s ∧ v ≤ r.turn

/-- What is known since the turn `t`, when `waiting` were held, with `k` slots taken since:
    what is held for longer is among `waiting`, and as long as the ring has not been gone
    round, a turn has been for each slot taken and for some of `waiting`. -/
structure Since (n t : Nat) (waiting : List Nat) (r : Ring) (k : Nat) : Prop where
  older : ∀ s v, r.held s = some v → v < t → s ∈ waiting
  counted : k + waiting.length < n → ∃ skipped : List Nat, skipped.Nodup ∧ skipped ⊆ waiting ∧
    r.turn = t + k + skipped.length ∧ ∀ s ∈ skipped, ∃ u, t < u ∧ u ≤ r.turn ∧ u % n = s

variable {n t k : Nat} {waiting : List Nat} {r : Ring}

@[simp] theorem pass_turn (k : Nat) (r : Ring) : (r.pass k).turn = r.turn + k := rfl

@[simp] theorem pass_held (k : Nat) (r : Ring) : (r.pass k).held = r.held := rfl

@[simp] theorem take_turn (n : Nat) (r : Ring) : (r.take n).turn = r.turn + 1 := rfl

@[simp] theorem take_held_self (n : Nat) (r : Ring) : (r.take n).held ((r.turn + 1) % n) = some (r.turn + 1) :=
  Function.update_self ..

theorem take_held_of_ne {s : Nat} (h : s ≠ (r.turn + 1) % n) : (r.take n).held s = r.held s :=
  Function.update_of_ne h ..

/-- What is held when slots have been given back was held before. -/
theorem held_of_keep {p : Nat → Bool} {s v : Nat} (h : (r.keep p).held s = some v) : r.held s = some v := by
  simp only [keep] at h
  split at h
  · exact h
  · simp at h

theorem ok_start : Ok n start := by
  intro s v h
  simp [start] at h

theorem Ok.pass (h : Ok n r) (k : Nat) : Ok n (r.pass k) := by
  intro s v hv
  obtain ⟨hs, hle⟩ := h s v hv
  exact ⟨hs, Nat.le_add_right_of_le hle⟩

theorem Ok.take (h : Ok n r) : Ok n (r.take n) := by
  intro s v hv
  by_cases hs : s = (r.turn + 1) % n
  · subst hs
    rw [take_held_self, Option.some.injEq] at hv
    subst hv
    exact ⟨rfl, Nat.le_refl _⟩
  · rw [take_held_of_ne hs] at hv
    obtain ⟨hs', hle⟩ := h s v hv
    exact ⟨hs', Nat.le_succ_of_le hle⟩

theorem Ok.keep (h : Ok n r) (p : Nat → Bool) : Ok n (r.keep p) := by
  intro s v hv
  exact h s v (held_of_keep hv)

/-- Turns of one slot that are less than a round apart are one turn. -/
theorem eq_of_mod_eq {u v : Nat} (h : u % n = v % n) (hle : v ≤ u) (hlt : u < v + n) : u = v := by
  obtain ⟨d, rfl⟩ := Nat.exists_eq_add_of_le hle
  have hd : d % n = 0 := by
    have hsub := Nat.sub_mod_eq_zero_of_mod_eq h
    rwa [Nat.add_sub_cancel_left] at hsub
  rw [Nat.mod_eq_of_lt (by omega)] at hd
  omega

/-- From the turn at which a slot was taken, nothing has been taken. -/
theorem Since.start (hwaiting : ∀ s v, r.held s = some v → v < r.turn → s ∈ waiting) :
    Since n r.turn waiting r 0 where
  older := hwaiting
  counted := fun _ => ⟨[], List.nodup_nil, List.nil_subset _, rfl, by simp⟩

theorem Since.turn_lt (h : Since n t waiting r k) (hk : k + waiting.length < n) : r.turn < t + n := by
  obtain ⟨skipped, hnodup, hsub, hturn, -⟩ := h.counted hk
  have hlen := (List.subperm_of_subset hnodup hsub).length_le
  omega

theorem Since.keep (h : Since n t waiting r k) (p : Nat → Bool) : Since n t waiting (r.keep p) k where
  older := by
    intro s v hv hlt
    exact h.older s v (held_of_keep hv) hlt
  counted := h.counted

/-- A slot that is passed over has been held since before. -/
theorem Since.pass_one (h : Since n t waiting r k) (hok : Ok n r) {v : Nat} (hheld : r.held ((r.turn + 1) % n) = some v)
    (hk : k + 1 + waiting.length < n) : Since n t waiting (r.pass 1) k where
  older := h.older
  counted := by
    intro hlt
    obtain ⟨skipped, hnodup, hsub, hturn, hseen⟩ := h.counted hlt
    have hlen := (List.subperm_of_subset hnodup hsub).length_le
    obtain ⟨hmod, hle⟩ := hok _ _ hheld
    have hround : v + n ≤ r.turn + 1 := by
      by_contra hgt
      have := eq_of_mod_eq hmod.symm (by omega) (by omega)
      omega
    refine ⟨(r.turn + 1) % n :: skipped, List.nodup_cons.mpr ⟨fun hmem => ?_, hnodup⟩,
      List.cons_subset.mpr ⟨h.older _ v hheld (by omega), hsub⟩, ?_, ?_⟩
    · obtain ⟨u, htu, hu, humod⟩ := hseen _ hmem
      have := eq_of_mod_eq humod.symm (by omega) (by omega)
      omega
    · show r.turn + 1 = _
      rw [List.length_cons]
      omega
    · intro s hs
      rcases List.mem_cons.mp hs with rfl | hs
      · exact ⟨r.turn + 1, by omega, Nat.le_refl _, rfl⟩
      · obtain ⟨u, htu, hu, humod⟩ := hseen s hs
        exact ⟨u, htu, Nat.le_succ_of_le hu, humod⟩

theorem Since.pass (h : Since n t waiting r k) (hok : Ok n r) (hk : k + 1 + waiting.length < n) (j : Nat)
    (hheld : ∀ i < j, r.held ((r.turn + 1 + i) % n) ≠ none) : Since n t waiting (r.pass j) k := by
  induction j with
  | zero => exact h
  | succ j ih =>
    have hj := ih fun i hi => hheld i (by omega)
    obtain ⟨v, hv⟩ := Option.ne_none_iff_exists'.mp (hheld j (by omega))
    exact hj.pass_one (hok.pass j) (by rw [← hv]; show r.held ((r.turn + j + 1) % n) = _; congr 2; omega) hk

theorem Since.take (h : Since n t waiting r k) (hle : t ≤ r.turn) : Since n t waiting (r.take n) (k + 1) where
  older := by
    intro s v hv hlt
    by_cases hs : s = (r.turn + 1) % n
    · subst hs
      rw [take_held_self, Option.some.injEq] at hv
      omega
    · rw [take_held_of_ne hs] at hv
      exact h.older s v hv hlt
  counted := by
    intro hlt
    obtain ⟨skipped, hnodup, hsub, hturn, hseen⟩ := h.counted (by omega)
    refine ⟨skipped, hnodup, hsub, ?_, fun s hs => ?_⟩
    · show r.turn + 1 = _
      omega
    · obtain ⟨u, htu, hu, humod⟩ := hseen s hs
      exact ⟨u, htu, Nat.le_succ_of_le hu, humod⟩

/-- Over a round, the slot of a turn is held by that turn or by nobody. -/
theorem Since.held_eq (h : Since n t waiting r k) (hok : Ok n r) (hk : k + waiting.length < n) {v : Nat}
    (hheld : r.held (t % n) = some v) (hle : t ≤ v) : v = t := by
  obtain ⟨hmod, hv⟩ := hok _ _ hheld
  have hturn := h.turn_lt hk
  exact eq_of_mod_eq hmod hle (by omega)

end Ring

end Bluebox.Lib

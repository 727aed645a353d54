/-
  Bluebox.Lib.Stamped

  Merging stamped values: the lowest stamp wins, values with the same stamp are
  joined, and the first value to arrive is joined with a neutral one.

  After any number of arrivals the state is the least stamp with the join of
  exactly the values that carry it (`receiveAll_eq`), which does not depend on
  the order of arrival (`joinAt_perm`).
-/
import Mathlib.Order.Lattice
import Mathlib.Data.List.Perm.Basic
import Mathlib.Data.List.Induction

namespace Bluebox.Lib

variable {τ β : Type _} [LinearOrder τ] (op : β → β → β) (e : β)

/-- One arrival. -/
def receive : Option (τ × β) → τ × β → τ × β
  | none, m => (m.1, op m.2 e)
  | some s, m => if m.1 = s.1 then (s.1, op m.2 s.2) else if m.1 < s.1 then m else s

/-- All arrivals, in order. -/
def receiveAll (l : List (τ × β)) : Option (τ × β) :=
  l.foldl (fun s m => some (receive op e s m)) none

/-- The join of the values with one stamp. -/
def joinAt (t : τ) (l : List (τ × β)) : β :=
  ((l.filter fun m => m.1 = t).map Prod.snd).foldl (fun b x => op x b) e

/-- The least stamp of a list. -/
def LeastStamp (t : τ) (l : List (τ × β)) : Prop := (∃ m ∈ l, m.1 = t) ∧ ∀ m ∈ l, t ≤ m.1

theorem LeastStamp.perm {t : τ} {l l' : List (τ × β)} (h : LeastStamp t l) (hp : l.Perm l') :
    LeastStamp t l' := by
  obtain ⟨⟨m, hm, rfl⟩, hle⟩ := h
  exact ⟨⟨m, hp.mem_iff.mp hm, rfl⟩, fun x hx => hle x (hp.mem_iff.mpr hx)⟩

/-- The join does not depend on the order. -/
theorem joinAt_perm [Std.Commutative op] [Std.Associative op] (t : τ) {l l' : List (τ × β)}
    (h : l.Perm l') : joinAt op e t l = joinAt op e t l' := by
  unfold joinAt
  refine ((h.filter _).map Prod.snd).foldl_eq' ?_ e
  intro x _ y _ b
  have hassoc : ∀ a b c, op (op a b) c = op a (op b c) := Std.Associative.assoc
  have hcomm : ∀ a b, op a b = op b a := Std.Commutative.comm
  rw [← hassoc, ← hassoc, hcomm y x]

/-- The state after any number of arrivals. -/
theorem receiveAll_eq {l : List (τ × β)} (hunit : ∀ m ∈ l, op m.2 e = m.2) (hne : l ≠ []) :
    ∃ t, LeastStamp t l ∧ receiveAll op e l = some (t, joinAt op e t l) := by
  -- induction on the arrivals, the last one first
  induction l using List.reverseRecOn with
  | nil => exact absurd rfl hne
  | append_singleton l m ih =>
    have hm := hunit m (List.mem_append_right _ List.mem_cons_self)
    unfold receiveAll at ih ⊢
    rw [List.foldl_append, List.foldl_cons, List.foldl_nil]
    by_cases hl : l = []
    · subst hl
      refine ⟨m.1, ⟨⟨m, List.mem_cons_self, rfl⟩, fun x hx => ?_⟩, ?_⟩
      · rw [List.nil_append, List.mem_singleton] at hx
        rw [hx]
      · simp [receive, joinAt]
    · obtain ⟨t, ⟨⟨n, hn, rfl⟩, hle⟩, heq⟩ := ih
        (fun x hx => hunit x (List.mem_append_left _ hx)) hl
      rw [heq]
      rcases lt_trichotomy m.1 n.1 with hlt | hsame | hgt
      · -- a lower stamp: nothing that came before carries it
        have hnone : l.filter (fun x => x.1 = m.1) = [] := by
          rw [List.filter_eq_nil_iff]
          intro x hx hxm
          rw [decide_eq_true_eq] at hxm
          exact absurd (hle x hx) (not_le.mpr (hxm ▸ hlt))
        refine ⟨m.1, ⟨⟨m, List.mem_append_right _ List.mem_cons_self, rfl⟩, fun x hx => ?_⟩, ?_⟩
        · rcases List.mem_append.mp hx with hx | hx
          · exact le_trans (le_of_lt hlt) (hle x hx)
          · rw [List.mem_singleton.mp hx]
        · unfold joinAt
          rw [List.filter_append, hnone]
          simp [receive, ne_of_lt hlt, hlt, hm]
      · refine ⟨n.1, ⟨⟨n, List.mem_append_left _ hn, rfl⟩, fun x hx => ?_⟩, ?_⟩
        · rcases List.mem_append.mp hx with hx | hx
          · exact hle x hx
          · rw [List.mem_singleton.mp hx, hsame]
        · unfold joinAt
          rw [List.filter_append]
          simp [receive, hsame]
      · refine ⟨n.1, ⟨⟨n, List.mem_append_left _ hn, rfl⟩, fun x hx => ?_⟩, ?_⟩
        · rcases List.mem_append.mp hx with hx | hx
          · exact hle x hx
          · rw [List.mem_singleton.mp hx]
            exact le_of_lt hgt
        · unfold joinAt
          rw [List.filter_append]
          simp [receive, ne_of_gt hgt, not_lt.mpr (le_of_lt hgt)]

end Bluebox.Lib

/-
  Bluebox.Lib.First

  Lists that are used as tables: the entries for a key are those with a property, and
  a change or a removal is made to the first of them.  The lemmas say what such a step
  does to the entries for the same key and for another one.
-/
import Mathlib.Data.List.Basic

namespace Bluebox.Lib

variable {α : Type _}

/-- Change the first element with a property. -/
def updateFirst (p : α → Bool) (f : α → α) : List α → List α
  | [] => []
  | a :: l => if p a then f a :: l else a :: updateFirst p f l

theorem find?_of_filter {p : α → Bool} {l : List α} {a : α} (h : l.filter p = [a]) :
    l.find? p = some a := by
  rw [← List.head?_filter, h]
  rfl

theorem filter_eraseP_self (p : α → Bool) (l : List α) :
    (l.eraseP p).filter p = (l.filter p).tail := by
  induction l with
  | nil => rfl
  | cons a l ih =>
    by_cases ha : p a = true
    · rw [List.eraseP_cons_of_pos ha, List.filter_cons_of_pos ha, List.tail_cons]
    · rw [List.eraseP_cons_of_neg ha, List.filter_cons_of_neg ha, List.filter_cons_of_neg ha, ih]

theorem filter_eraseP_of_disjoint {p q : α → Bool} {l : List α}
    (h : ∀ a ∈ l, p a = true → q a = false) : (l.eraseP p).filter q = l.filter q := by
  induction l with
  | nil => rfl
  | cons a l ih =>
    by_cases ha : p a = true
    · have hq := h a List.mem_cons_self ha
      rw [List.eraseP_cons_of_pos ha, List.filter_cons_of_neg (by rw [hq]; exact Bool.false_ne_true)]
    · rw [List.eraseP_cons_of_neg ha, List.filter_cons, List.filter_cons,
        ih fun b hb => h b (List.mem_cons_of_mem a hb)]

theorem filter_updateFirst_self {p : α → Bool} {f : α → α} (hf : ∀ a, p (f a) = p a)
    {l : List α} {a : α} (h : l.filter p = [a]) : (updateFirst p f l).filter p = [f a] := by
  induction l with
  | nil => cases h
  | cons b l ih =>
    rw [updateFirst]
    by_cases hb : p b = true
    · rw [List.filter_cons_of_pos hb] at h
      obtain ⟨rfl, hrest⟩ := List.cons.inj h
      rw [if_pos hb, List.filter_cons_of_pos (by rw [hf]; exact hb), hrest]
    · rw [List.filter_cons_of_neg hb] at h
      rw [if_neg hb, List.filter_cons_of_neg hb]
      exact ih h

theorem filter_updateFirst_of_disjoint {p q : α → Bool} {f : α → α}
    (hf : ∀ a, q (f a) = q a) {l : List α} (h : ∀ a ∈ l, p a = true → q a = false) :
    (updateFirst p f l).filter q = l.filter q := by
  induction l with
  | nil => rfl
  | cons a l ih =>
    rw [updateFirst]
    by_cases ha : p a = true
    · have hq := h a List.mem_cons_self ha
      rw [if_pos ha, List.filter_cons, List.filter_cons, hf, hq]
      rfl
    · rw [if_neg ha, List.filter_cons, List.filter_cons,
        ih fun b hb => h b (List.mem_cons_of_mem a hb)]

theorem updateFirst_congr {p q : α → Bool} (f : α → α) {l : List α}
    (h : ∀ a ∈ l, p a = q a) : updateFirst p f l = updateFirst q f l := by
  induction l with
  | nil => rfl
  | cons a l ih =>
    rw [updateFirst, updateFirst, h a List.mem_cons_self,
      ih fun b hb => h b (List.mem_cons_of_mem a hb)]

/-- An element after a change was there before, or it is the one that was changed. -/
theorem mem_updateFirst {p : α → Bool} {f : α → α} {l : List α} {a : α}
    (h : a ∈ updateFirst p f l) : a ∈ l ∨ ∃ b, l.find? p = some b ∧ a = f b := by
  induction l with
  | nil => cases h
  | cons b l ih =>
    rw [updateFirst] at h
    by_cases hb : p b = true
    · rw [if_pos hb] at h
      obtain rfl | h := List.mem_cons.mp h
      · exact Or.inr ⟨b, List.find?_cons_of_pos hb, rfl⟩
      · exact Or.inl (List.mem_cons_of_mem b h)
    · rw [if_neg hb] at h
      obtain rfl | h := List.mem_cons.mp h
      · exact Or.inl List.mem_cons_self
      · obtain h | ⟨c, hc, hac⟩ := ih h
        · exact Or.inl (List.mem_cons_of_mem b h)
        · refine Or.inr ⟨c, ?_, hac⟩
          rw [List.find?_cons_of_neg hb]
          exact hc

end Bluebox.Lib
